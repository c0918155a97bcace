import Adnl.Proofs.Host.Parties

/-! # Announcements

A node announces a conversation when it begins by a packet, once, and never one that the application
has asked for. Whoever looks finds what has been announced since the last look; when that is more
than is kept, the latest of it and how many are missing.
-/
namespace Adnl

namespace Backlog

variable {α : Type} {b : Backlog α} {told : List α}

/-- What is left of everything that has been announced since the last look. -/
structure Keeps (b : Backlog α) (told : List α) : Prop where
  entries : b.entries = told.drop (told.length - b.capacity)
  lost : b.lost = told.length - b.capacity

theorem capacity_push (b : Backlog α) (a : α) : (b.push a).capacity = b.capacity := by
  rw [push]
  split_ifs <;> rfl

theorem capacity_foldl_push (l : List α) (b : Backlog α) :
    (l.foldl push b).capacity = b.capacity := by
  induction l generalizing b with
  | nil => rfl
  | cons a l ih => exact (ih _).trans (b.capacity_push a)

theorem keeps_clear (b : Backlog α) : b.clear.Keeps [] :=
  ⟨List.drop_nil.symm, (Nat.zero_sub _).symm⟩

theorem Keeps.push (h : b.Keeps told) (hpos : 0 < b.capacity) (a : α) :
    (b.push a).Keeps (told ++ [a]) := by
  have hlength : b.entries.length = told.length - (told.length - b.capacity) := by
    rw [h.entries, List.length_drop]
  rw [Backlog.push]
  split_ifs with hroom
  · have hall : (told ++ [a]).length - b.capacity = 0 := by
      rw [List.length_append, List.length_singleton]
      omega
    have hbefore : told.length - b.capacity = 0 := by omega
    refine ⟨?_, ?_⟩
    · rw [hall, List.drop_zero, h.entries, hbefore, List.drop_zero]
    · exact h.lost.trans (hbefore.trans hall.symm)
  · have hmore : (told ++ [a]).length - b.capacity = told.length - b.capacity + 1 := by
      rw [List.length_append, List.length_singleton]
      omega
    refine ⟨?_, ?_⟩
    · rw [hmore, List.drop_append_of_le_length (by omega), h.entries, List.drop_drop]
    · rw [hmore, h.lost]

theorem Keeps.foldl (h : b.Keeps told) (hpos : 0 < b.capacity) (l : List α) :
    (l.foldl Backlog.push b).Keeps (told ++ l) := by
  induction l generalizing b told with
  | nil => rwa [List.append_nil]
  | cons a l ih =>
    have hnext := ih (h.push hpos a) ((b.capacity_push a).symm ▸ hpos)
    rwa [List.append_assoc] at hnext

theorem capacity_ofCapacity_pos (n : Nat) : 0 < (ofCapacity n : Backlog α).capacity :=
  Nat.pos_of_ne_zero fun h => absurd (Nat.isPowerOfTwo_nextPowerOfTwo (max n 1)) (by
    rw [show (max n 1).nextPowerOfTwo = 0 from h]
    exact fun ⟨k, hk⟩ => (Nat.two_pow_pos k).ne hk)

end Backlog

namespace Census

theorem mem_positions {n first i : Nat} {l : List Parties} (h : i ∈ positions n first l) :
    first ≤ i := by
  obtain ⟨e, he, rfl⟩ := List.mem_map.1 h
  exact (List.mem_zipIdx (List.mem_of_mem_filter he)).1

theorem positions_eq (n : Nat) (l : List Parties) : positions n 0 l =
    (List.range l.length).filter fun i => l[i]?.map Parties.node = some n := by
  induction l using List.reverseRecOn with
  | nil => rfl
  | append_singleton l p ih =>
    rw [positions_append, ih, List.length_append, List.length_singleton, List.range_succ,
      List.filter_append]
    refine congrArg₂ _ (List.filter_congr fun i hi => ?_) ?_
    · rw [List.getElem?_append_left (List.mem_range.1 hi)]
    · simp only [positions, List.zipIdx_singleton, Nat.zero_add, List.filter_singleton,
        List.getElem?_concat_length, Option.map_some, Option.some.injEq]
      cases decide (p.node = n) <;> rfl

end Census

namespace Host

variable {K : KeyScheme} {h : Host} {n i : Nat}

def backlog (h : Host) (n : Nat) : Backlog Nat :=
  (h.nodes[n]?.map Node.announced).getD (.ofCapacity h.config.announcementCapacity)

/-- The conversations of a node that begin in the course of an act. -/
def beginnings (K : KeyScheme) (h : Host) (n : Nat) (a : Act) : List Nat :=
  ((h.act K a).conversationsOf n).filter (h.conversations.length ≤ ·)

/-- Those that the application has not asked for. -/
def contacts (K : KeyScheme) (h : Host) (n : Nat) : Act → List Nat
  | .connect .. => []
  | a => h.beginnings K n a

def contactsOf (K : KeyScheme) (n : Nat) : Host → List Act → List Nat
  | _, [] => []
  | h, a :: acts => h.contacts K n a ++ contactsOf K n (h.act K a) acts

/-- What is found at a node by those who look at it in the course of a series of acts and by one who
looks in the end. -/
def found (K : KeyScheme) (n : Nat) : Host → List Act → List (Backlog Nat)
  | h, [] => [h.backlog n]
  | h, .look m :: acts =>
    if m = n then h.backlog n :: found K n (h.look m) acts else found K n (h.look m) acts
  | h, a :: acts => found K n (h.act K a) acts

theorem backlog_census (h : Host) (n : Nat) : h.census.backlog n = h.backlog n := by
  simp only [Census.backlog, backlog, census, List.getElem?_map, Option.map_map]
  rfl

theorem backlog_look (h : Host) (n : Nat) :
    (h.look n).backlog n = (h.backlog n).clear := by
  simp only [backlog, look, modifyNode, List.getElem?_modify]
  cases h.nodes[n]? <;> simp [Backlog.clear, Backlog.ofCapacity]

theorem conversationsOf_eq (h : Host) (n : Nat) :
    h.conversationsOf n = Census.positions n 0 h.parties := by
  rw [Census.positions_eq, conversationsOf, parties, List.length_map]
  refine List.filter_congr fun i _ => ?_
  rw [List.getElem?_map, Option.map_map]
  rfl

theorem filter_conversationsOf {h' : Host} {begun : List Parties}
    (hparties : h'.parties = h.parties ++ begun) (n : Nat) :
    (h'.conversationsOf n).filter (h.conversations.length ≤ ·) =
      Census.positions n h.parties.length begun := by
  have hlength : h.parties.length = h.conversations.length := List.length_map _
  rw [conversationsOf_eq, hparties, Census.positions_append, List.filter_append,
    Nat.zero_add, ← hlength]
  have hold : (Census.positions n 0 h.parties).filter (h.parties.length ≤ ·) = [] := by
    rw [Census.positions_eq]
    refine List.filter_eq_nil_iff.2 fun i hi => ?_
    have hlt := List.mem_range.1 (List.mem_of_mem_filter hi)
    simpa using hlt
  have hnew : (Census.positions n h.parties.length begun).filter (h.parties.length ≤ ·) =
      Census.positions n h.parties.length begun :=
    List.filter_eq_self.2 fun i hi => decide_eq_true (Census.mem_positions hi)
  rw [hold, hnew, List.nil_append]

theorem beginnings_eq {a : Act} {begun : List Parties}
    (hparties : (h.act K a).parties = h.parties ++ begun) (n : Nat) :
    h.beginnings K n a = Census.positions n h.parties.length begun :=
  filter_conversationsOf hparties n

theorem begun_of_ne {a : Act} {begun : List Parties}
    (hbegins : Census.Begins a.special? begun h.census (h.act K a).census) (hne : begun ≠ []) :
    (∃ now m, a = .run now (.serve m)) ∨ ∃ m remote date, a = .connect m remote date := by
  obtain hs | hs := hbegins.special hne
  · cases a with
    | connect m remote date => exact .inr ⟨m, remote, date, rfl⟩
    | run now activity => cases activity <;> cases hs
    | _ => cases hs
  · cases a with
    | run now activity =>
      cases activity with
      | serve m => exact .inl ⟨now, m, rfl⟩
      | _ => cases hs
    | _ => cases hs

theorem contacts_of_special?_ne {a : Act} (ha : a.special? ≠ some .seek) :
    h.contacts K n a = h.beginnings K n a := by
  cases a with
  | connect => exact absurd rfl ha
  | _ => rfl

/-- What a node announces in the course of an act are the conversations that begin by it, but for
those that the application has asked for. -/
theorem backlog_act (K : KeyScheme) (h : Host) (n : Nat) {a : Act} (ha : a ≠ .look n) :
    (h.act K a).backlog n = (h.contacts K n a).foldl Backlog.push (h.backlog n) := by
  obtain ⟨begun, hbegins⟩ := (h.becomes_act K a).begins
  have hlook : a.special? ≠ some (.look n) := by
    intro hlook
    refine ha ?_
    cases a with
    | look m => exact congrArg Act.look (Special.look.inj (Option.some.inj hlook))
    | run now activity => cases activity <;> cases hlook
    | _ => cases hlook
  have hparties := hbegins.parties
  rw [parties_census, parties_census] at hparties
  have hbacklog := hbegins.backlog n hlook
  rw [backlog_census, backlog_census, parties_census, Census.announcements,
    ← beginnings_eq hparties n] at hbacklog
  rw [hbacklog]
  by_cases hseek : a.special? = some .seek
  · obtain ⟨m, remote, date, rfl⟩ : ∃ m remote date, a = .connect m remote date := by
      cases a with
      | connect m remote date => exact ⟨m, remote, date, rfl⟩
      | run now activity => cases activity <;> cases hseek
      | _ => cases hseek
    rfl
  · rw [if_neg hseek, contacts_of_special?_ne hseek]

theorem found_cons_of_ne {a : Act} (ha : a ≠ .look n) (acts : List Act) :
    h.found K n (a :: acts) = (h.act K a).found K n acts := by
  cases a with
  | look m => exact if_neg fun hm : m = n => ha (hm ▸ rfl)
  | _ => rfl

theorem found_of_not_look (K : KeyScheme) (n : Nat) {acts : List Act} (hacts : .look n ∉ acts)
    (h : Host) : h.found K n acts = [(h.perform K acts).backlog n] := by
  induction acts generalizing h with
  | nil => rfl
  | cons a acts ih =>
    obtain ⟨ha, hacts⟩ := not_or.1 (mt List.mem_cons.2 hacts)
    exact (found_cons_of_ne (Ne.symm ha) acts).trans (ih hacts _)

/-- What has been announced between one look and the next is what is left there, or more. -/
theorem exists_pieces (K : KeyScheme) (n : Nat) (acts : List Act) {h : Host} {capacity : Nat}
    (hcapacity : (h.backlog n).capacity = capacity) (hpos : 0 < capacity) {told : List Nat}
    (hkeeps : (h.backlog n).Keeps told) :
    ∃ pieces : List (List Nat), pieces.flatten = told ++ h.contactsOf K n acts ∧
      List.Forall₂ (fun b piece => b.Keeps piece ∧ b.capacity = capacity) (h.found K n acts)
        pieces := by
  induction acts generalizing h told with
  | nil => exact ⟨[told], by simp [contactsOf], .cons ⟨hkeeps, hcapacity⟩ .nil⟩
  | cons a acts ih =>
    by_cases ha : a = .look n
    · subst ha
      have hclear := h.backlog_look n
      have hempty : ((h.look n).backlog n).Keeps [] := by
        rw [hclear]
        exact (h.backlog n).keeps_clear
      obtain ⟨pieces, hpieces, hfound⟩ := ih (h := h.look n) (hclear ▸ hcapacity) hempty
      have hnone : h.contacts K n (.look n) = [] := by
        have hparties : (h.act K (.look n)).parties = h.parties ++ [] := (List.append_nil _).symm
        exact beginnings_eq hparties n
      refine ⟨told :: pieces, ?_, ?_⟩
      · rw [List.flatten_cons, hpieces, contactsOf, hnone]
        rfl
      · rw [found, if_pos rfl]
        exact .cons ⟨hkeeps, hcapacity⟩ hfound
    · have hact := h.backlog_act K n ha
      have hfound : h.found K n (a :: acts) = (h.act K a).found K n acts := found_cons_of_ne ha acts
      have hnext : ((h.act K a).backlog n).Keeps (told ++ h.contacts K n a) := by
        rw [hact]
        exact hkeeps.foldl (hcapacity ▸ hpos) _
      have hsame : ((h.act K a).backlog n).capacity = capacity := by
        rw [hact, Backlog.capacity_foldl_push, hcapacity]
      obtain ⟨pieces, hpieces, hall⟩ := ih hsame hnext
      refine ⟨pieces, ?_, hfound ▸ hall⟩
      rw [hpieces, contactsOf, List.append_assoc]

theorem length_le_act (K : KeyScheme) (h : Host) (a : Act) :
    h.conversations.length ≤ (h.act K a).conversations.length := by
  obtain ⟨begun, hparties⟩ := h.grows_act K a
  have hlength := congrArg List.length hparties
  simp only [parties, List.length_append, List.length_map] at hlength
  omega

theorem length_le_perform (K : KeyScheme) (h : Host) (acts : List Act) :
    h.conversations.length ≤ (h.perform K acts).conversations.length := by
  induction acts generalizing h with
  | nil => exact Nat.le_refl _
  | cons a acts ih => exact (h.length_le_act K a).trans (ih _)

theorem mem_beginnings {a : Act} (hi : i ∈ h.beginnings K n a) :
    h.conversations.length ≤ i ∧ i < (h.act K a).conversations.length := by
  obtain ⟨hmem, hle⟩ := List.mem_filter.1 hi
  exact ⟨of_decide_eq_true hle, List.mem_range.1 (List.mem_of_mem_filter hmem)⟩

theorem mem_beginnings_of_mem_contacts {a : Act} (hi : i ∈ h.contacts K n a) :
    i ∈ h.beginnings K n a := by
  unfold contacts at hi
  split at hi
  · cases hi
  · exact hi

theorem contactsOf_append (K : KeyScheme) (n : Nat) (acts later : List Act) (h : Host) :
    h.contactsOf K n (acts ++ later) =
      h.contactsOf K n acts ++ (h.perform K acts).contactsOf K n later := by
  induction acts generalizing h with
  | nil => rfl
  | cons a acts ih =>
    simp only [List.cons_append, contactsOf, ih, List.append_assoc]
    rfl

theorem contactsOf_of_not_connect (K : KeyScheme) (n : Nat) {acts : List Act}
    (hacts : ∀ a ∈ acts, a.special? ≠ some .seek) (h : Host) : h.contactsOf K n acts =
      ((h.perform K acts).conversationsOf n).filter (h.conversations.length ≤ ·) := by
  suffices ∃ begun, (h.perform K acts).parties = h.parties ++ begun ∧
      h.contactsOf K n acts = Census.positions n h.parties.length begun by
    obtain ⟨begun, hparties, hcontacts⟩ := this
    rw [hcontacts, filter_conversationsOf hparties]
  induction acts generalizing h with
  | nil => exact ⟨[], (List.append_nil _).symm, rfl⟩
  | cons a acts ih =>
    obtain ⟨first, hfirst⟩ := h.grows_act K a
    obtain ⟨later, hlater, hcontacts⟩ :=
      ih (fun a' ha' => hacts a' (List.mem_cons_of_mem _ ha')) (h.act K a)
    refine ⟨first ++ later, ?_, ?_⟩
    · rw [← List.append_assoc, ← hfirst]
      exact hlater
    · rw [contactsOf, contacts_of_special?_ne (hacts a List.mem_cons_self),
        beginnings_eq hfirst, hcontacts, hfirst, List.length_append, Census.positions_append]

theorem mem_contactsOf {acts : List Act} (hi : i ∈ h.contactsOf K n acts) :
    h.conversations.length ≤ i ∧ i < (h.perform K acts).conversations.length := by
  induction acts generalizing h with
  | nil => cases hi
  | cons a acts ih =>
    have hle := h.length_le_act K a
    obtain hi | hi := List.mem_append.1 hi
    · obtain ⟨hfirst, hlt⟩ := mem_beginnings (mem_beginnings_of_mem_contacts hi)
      exact ⟨hfirst, hlt.trans_le (length_le_perform K _ acts)⟩
    · obtain ⟨hfirst, hlt⟩ := ih hi
      exact ⟨hle.trans hfirst, hlt⟩

/-- The conversations are announced in the order in which they begin, and none of them twice. -/
theorem pairwise_contactsOf (K : KeyScheme) (h : Host) (n : Nat) (acts : List Act) :
    (h.contactsOf K n acts).Pairwise (· < ·) := by
  induction acts generalizing h with
  | nil => exact .nil
  | cons a acts ih =>
    refine List.pairwise_append.2 ⟨?_, ih _, fun i hi j hj => ?_⟩
    · have hbeginnings : (h.beginnings K n a).Pairwise (· < ·) :=
        (List.pairwise_lt_range.filter _).filter _
      unfold contacts
      split
      · exact .nil
      · exact hbeginnings
    · exact (mem_beginnings (mem_beginnings_of_mem_contacts hi)).2.trans_le (mem_contactsOf hj).1

theorem not_mem_contactsOf_of_connect {before after : List Act} {m : Nat} {remote : Descriptor}
    {date : Int32}
    (hi : i ∈ (h.perform K before).beginnings K n (.connect m remote date)) :
    i ∉ h.contactsOf K n (before ++ .connect m remote date :: after) := by
  obtain ⟨hfirst, hlt⟩ := mem_beginnings hi
  rw [contactsOf_append, contactsOf]
  intro hmem
  obtain hbefore | hafter := List.mem_append.1 hmem
  · exact (mem_contactsOf hbefore).2.not_ge hfirst
  · obtain hnone | hafter := List.mem_append.1 hafter
    · cases hnone
    · exact (mem_contactsOf hafter).1.not_gt hlt

theorem mem_contactsOf_of_ne_connect {before after : List Act} {a : Act}
    (ha : ∀ m remote date, a ≠ .connect m remote date)
    (hi : i ∈ (h.perform K before).beginnings K n a) :
    i ∈ h.contactsOf K n (before ++ a :: after) := by
  have hcontacts : (h.perform K before).contacts K n a = (h.perform K before).beginnings K n a := by
    cases a with
    | connect m remote date => exact absurd rfl (ha m remote date)
    | _ => rfl
  rw [contactsOf_append, contactsOf, hcontacts]
  exact List.mem_append_right _ (List.mem_append_left _ hi)

end Host

end Adnl
