import Adnl.Proofs.Host.Census

/-! # Who talks to whom

A conversation belongs to one node and to one remote identity for as long as the host exists. No
turn of it and nothing else that happens on the host changes either, and conversations keep their
positions, so what is found under a position later on is the same conversation. A node announces a
conversation when it begins by a packet, and at no other time.
-/
namespace Adnl

theorem Outlook.Next.parties_eq {late : Prop} {o o' : Outlook} (h : o.Next late o') :
    o'.standing.parties = o.standing.parties := by
  cases h <;> rfl

namespace Census

def parties (c : Census) : List Parties := c.standings.map Standing.parties

/-- What waits to be looked at at a node; nothing if the node has not come yet. -/
def backlog (c : Census) (n : Nat) : Backlog Nat :=
  (c.seats[n]?.map Seat.announced).getD (.ofCapacity c.capacity)

/-- The positions of the conversations of a node in a list that begins at a position. -/
def positions (n first : Nat) (l : List Parties) : List Nat :=
  ((l.zipIdx first).filter (·.1.node = n)).map Prod.snd

theorem positions_append (n first : Nat) (l l' : List Parties) :
    positions n first (l ++ l') = positions n first l ++ positions n (first + l.length) l' := by
  rw [positions, List.zipIdx_append, List.filter_append, List.map_append]
  rfl

/-- What a node announces when conversations have begun behind the others. -/
def announcements (s : Option Special) (n first : Nat) (begun : List Parties) : List Nat :=
  if s = some .seek then [] else positions n first begun

@[simp] theorem announcements_nil (s : Option Special) (n first : Nat) :
    announcements s n first [] = [] := by
  simp [announcements, positions]

theorem announcements_append (s : Option Special) (n first : Nat) (begun later : List Parties) :
    announcements s n first (begun ++ later) =
      announcements s n first begun ++ announcements s n (first + begun.length) later := by
  unfold announcements
  split_ifs
  · rfl
  · exact positions_append n first begun later

/-- The conversations stay, others begin after them, and the nodes announce those that they have to,
each once and in order. -/
structure Begins (s : Option Special) (begun : List Parties) (c c' : Census) : Prop where
  parties : c'.parties = c.parties ++ begun
  special : begun ≠ [] → s = some .seek ∨ s = some .meet
  backlog : ∀ n, s ≠ some (.look n) → c'.backlog n =
    (announcements s n c.parties.length begun).foldl Backlog.push (c.backlog n)

variable {s : Option Special} {c c' : Census}

theorem Begins.trans {c'' : Census} {begun later : List Parties} (h : c.Begins s begun c')
    (h' : c'.Begins s later c'') : c.Begins s (begun ++ later) c'' where
  parties := by rw [h'.parties, h.parties, List.append_assoc]
  special hne := by
    by_cases hbegun : begun = []
    · exact h'.special fun hlater => hne (by rw [hbegun, hlater, List.append_nil])
    · exact h.special hbegun
  backlog n hs := by
    rw [h'.backlog n hs, h.backlog n hs, announcements_append, List.foldl_append, h.parties,
      List.length_append]

theorem begins_nil (hparties : c'.parties = c.parties)
    (h : ∀ n, s ≠ some (.look n) → c'.backlog n = c.backlog n) : c.Begins s [] c' := by
  refine ⟨hparties.trans (List.append_nil _).symm, absurd rfl, fun n hs => ?_⟩
  rw [announcements_nil]
  exact h n hs

theorem backlog_modify (routes : RouteTable) (standings : List Standing) (m n : Nat)
    {f : Seat → Seat} (hf : ∀ seat, m = n → (f seat).announced = seat.announced) :
    backlog ⟨routes, c.seats.modify m f, standings, c.capacity⟩ n = c.backlog n := by
  rw [backlog, backlog, List.getElem?_modify]
  cases c.seats[n]? with
  | none => rfl
  | some seat =>
    by_cases hmn : m = n
    · simp [hmn, hf seat hmn]
    · simp [hmn]

theorem Change.begins (h : c.Change s c') : ∃ begun, c.Begins s begun c' := by
  cases h with
  | turned hi hnext => exact ⟨[], begins_nil (map_set_of_eq hi hnext.parties_eq) fun _ _ => rfl⟩
  | forgot => exact ⟨[], begins_nil rfl fun n _ => backlog_modify _ _ _ n fun _ _ => rfl⟩
  | dropped => exact ⟨[], begins_nil rfl fun n _ => backlog_modify _ _ _ n fun _ _ => rfl⟩
  | looked hs =>
    exact ⟨[], begins_nil rfl fun n hne => backlog_modify _ _ _ n fun _ hmn =>
      absurd (hmn ▸ hs) hne⟩
  | added =>
    -- A node that comes has nothing to announce.
    refine ⟨[], begins_nil rfl fun n _ => ?_⟩
    rcases Nat.lt_trichotomy n c.seats.length with hlt | rfl | hgt
    · simp only [backlog, List.getElem?_append_left hlt]
    · simp [backlog]
    · simp only [backlog, List.getElem?_eq_none (Nat.le_of_lt hgt)]
      rw [List.getElem?_eq_none (by simpa using hgt)]
  | @began m seat hs own peer hm =>
    refine ⟨[⟨m, own, peer⟩], List.map_append, fun _ => hs, fun n _ => ?_⟩
    by_cases hmn : m = n
    · subst hmn
      by_cases hseek : s = some .seek
      · simp [backlog, announcements, hm, hseek, Seat.enter]
      · simp [backlog, announcements, positions, hm, hseek, Seat.enter, Seat.announce, parties]
    · have hnone : announcements s n c.parties.length [⟨m, own, peer⟩] = [] := by
        simp [announcements, positions, hmn]
      rw [hnone]
      exact backlog_modify _ _ _ n fun _ heq => absurd heq hmn
  | listened => exact ⟨[], begins_nil rfl fun _ _ => rfl⟩
  | unlistened => exact ⟨[], begins_nil rfl fun _ _ => rfl⟩

theorem Changes.begins (h : c.Changes s c') : ∃ begun, c.Begins s begun c' := by
  induction h with
  | refl => exact ⟨[], begins_nil rfl fun _ _ => rfl⟩
  | tail _ hlast ih =>
    obtain ⟨begun, hbegins⟩ := ih
    obtain ⟨later, hlater⟩ := hlast.begins
    exact ⟨begun ++ later, hbegins.trans hlater⟩

end Census

namespace Host

variable {h h' : Host} {i : Nat} {c : Conversation}

def parties (h : Host) : List Parties := h.conversations.map Conversation.parties

/-- Every conversation is still in its place and between the same two. -/
def Grows (h h' : Host) : Prop := ∃ added, h'.parties = h.parties ++ added

theorem Grows.find (hg : h.Grows h') (hc : h.conversations[i]? = some c) :
    ∃ c', h'.conversations[i]? = some c' ∧ c'.parties = c.parties := by
  obtain ⟨added, e⟩ := hg
  have hi : i < h.parties.length := by
    simpa [parties] using (List.getElem?_eq_some_iff.1 hc).1
  have hparties : h'.parties[i]? = some c.parties := by
    rw [e, List.getElem?_append_left hi, parties, List.getElem?_map, hc]
    rfl
  rw [parties, List.getElem?_map] at hparties
  exact Option.map_eq_some_iff.1 hparties

theorem parties_census (h : Host) : h.census.parties = h.parties := List.map_map

/-- Whatever happens, every conversation stays in its place and between the same two. -/
theorem grows_act (K : KeyScheme) (h : Host) (a : Act) : h.Grows (h.act K a) := by
  obtain ⟨begun, hbegins⟩ := (h.becomes_act K a).begins
  have e := hbegins.parties
  rw [parties_census, parties_census] at e
  exact ⟨begun, e⟩

end Host

end Adnl
