import Adnl.Proofs.Codec.RoundTrip
import Adnl.Proofs.Reassembly.Gaps

/-! # Messages come out of their parts in any order

For one message the assembler keeps, among all other transfers, exactly what has been received of it
since it was last complete, as long as something new keeps coming before the transfer expires. The
part that covers the last position missing gives the message.
-/
namespace Adnl

structure Part where
  now : Nat
  hash : Bytes32
  totalSize : Int32
  offset : Int32
  data : Bytes

namespace Part

def range (c : Part) : Gap :=
  ⟨c.offset.toInt.toNat, c.offset.toInt.toNat + c.data.length⟩

/-- The part is a true piece of the bytes. -/
structure Of (b : Bytes) (c : Part) : Prop where
  totalSize : c.totalSize.toInt = b.length
  offset : 0 ≤ c.offset.toInt
  within : c.range.stop ≤ b.length
  data : c.data = Bytes.slice b c.range.start c.data.length

instance (b : Bytes) (c : Part) : Decidable (c.Of b) :=
  decidable_of_iff (c.totalSize.toInt = b.length ∧ 0 ≤ c.offset.toInt ∧ c.range.stop ≤ b.length ∧
      c.data = Bytes.slice b c.range.start c.data.length)
    ⟨fun ⟨hsize, hoffset, hwithin, hdata⟩ => ⟨hsize, hoffset, hwithin, hdata⟩,
      fun h => ⟨h.totalSize, h.offset, h.within, h.data⟩⟩

theorem Of.getElem?_data {b : Bytes} {c : Part} (h : c.Of b) {i : Nat} (hi : c.range.Has i) :
    c.data[i - c.range.start]? = b[i]? := by
  obtain ⟨hlow, hhigh⟩ := hi
  have hlt : i - c.range.start < c.data.length := by
    simp only [range] at hlow hhigh ⊢
    omega
  rw [h.data, Bytes.slice, List.getElem?_take_of_lt hlt, List.getElem?_drop,
    Nat.add_sub_cancel' hlow]

end Part

theorem not_complete_nil {n : Nat} (h : 0 < n) : ¬ Complete n [] :=
  fun hall => by simpa [Covers] using hall 0 h

/-- What has been received of a message since the start, or since it was last complete. -/
structure Receipt where
  ranges : List Gap := []
  /-- When something new came last. -/
  since : Option Nat := none
deriving DecidableEq

namespace Receipt

/-- The part covers a position that was not covered before. -/
def IsNew (r : Receipt) (c : Part) : Prop :=
  ∃ i < c.range.stop, c.range.Has i ∧ ¬ Covers r.ranges i

instance (r : Receipt) (c : Part) : Decidable (r.IsNew c) :=
  inferInstanceAs (Decidable (∃ i < c.range.stop, c.range.Has i ∧ ¬ Covers r.ranges i))

/-- The part is the one with which `n` bytes become complete. -/
def Completes (n : Nat) (r : Receipt) (c : Part) : Prop := Complete n (c.range :: r.ranges)

instance (n : Nat) (r : Receipt) (c : Part) : Decidable (r.Completes n c) :=
  inferInstanceAs (Decidable (Complete n (c.range :: r.ranges)))

def add (n : Nat) (r : Receipt) (c : Part) : Receipt :=
  if r.Completes n c then {}
  else ⟨c.range :: r.ranges, if r.IsNew c then some c.now else r.since⟩

/-- What some parts amount to for the bytes `b`. -/
def ofParts (b : Bytes) (cs : List Part) : Receipt :=
  cs.foldl (fun r c => if c.hash = sha256 b then r.add b.length c else r) {}

variable {r : Receipt} {c : Part} {n : Nat}

theorem covers_of_not_isNew (h : ¬ r.IsNew c) {i : Nat} (hi : c.range.Has i) :
    Covers r.ranges i := by
  by_contra hnot
  exact h ⟨i, hi.2, hi, hnot⟩

theorem isNew_of_completes (h : r.Completes n c) (hincomplete : ¬ Complete n r.ranges) :
    r.IsNew c := by
  by_contra hold
  refine hincomplete fun i hi => ?_
  obtain hpart | hbefore := covers_cons.1 (h i hi)
  · exact covers_of_not_isNew hold hpart
  · exact hbefore

end Receipt

/-- Parts in the order of time. Those that name the hash of `b` are true pieces of it, and each that
brings something new comes before the transfer expires. -/
structure Orderly (b : Bytes) (ttl : Nat) (cs : List Part) : Prop where
  inOrder : cs.Pairwise (·.now ≤ ·.now)
  pieces : ∀ c ∈ cs, c.hash = sha256 b → c.Of b
  inTime : ∀ before c, before ++ [c] <+: cs → c.hash = sha256 b →
    (Receipt.ofParts b before).IsNew c → ∀ s, (Receipt.ofParts b before).since = some s →
      c.now < s + ttl

namespace Transfer

/-- A transfer of the bytes `b` that knows no more than what some ranges cover. -/
structure Holds (b : Bytes) (ranges : List Gap) (t : Transfer) : Prop extends t.Sane where
  total : t.total = b.length
  known : ∀ i < b.length, ¬ t.Missing i → t.buffer[i]? = b[i]? ∧ Covers ranges i

variable {b : Bytes} {ranges : List Gap} {t : Transfer} {c : Part}

theorem holds_start (hb : 0 < b.length) (deadline : Nat) :
    (Transfer.start b.length deadline).Holds b ranges where
  toSane := sane_start hb deadline
  total := rfl
  known _ hi hm := absurd (missing_start.2 hi) hm

theorem Holds.lt_of_missing (h : t.Holds b ranges) {i : Nat} (hm : t.Missing i) : i < b.length := by
  obtain ⟨g, hg, hi⟩ := hm
  rw [← h.total]
  exact Nat.lt_of_lt_of_le hi.2 (h.gaps g hg).2

theorem Holds.cons (h : t.Holds b ranges) (g : Gap) : t.Holds b (g :: ranges) where
  toSane := h.toSane
  total := h.total
  known i hi hm := by
    obtain ⟨hbyte, g', hg', hhas⟩ := h.known i hi hm
    exact ⟨hbyte, g', List.mem_cons_of_mem _ hg', hhas⟩

theorem Holds.extend (h : t.Holds b ranges) (deadline : Nat) :
    ({ t with deadline } : Transfer).Holds b ranges :=
  ⟨⟨h.length, h.gaps⟩, h.total, h.known⟩

theorem Holds.fill (h : t.Holds b ranges) (hc : c.Of b) :
    (t.fill c.range.start c.data).2.Holds b (c.range :: ranges) where
  toSane := h.toSane.fill
  total := h.total
  known i hi hm := by
    rw [missing_fill] at hm
    rw [h.toSane.getElem?_fill]
    split_ifs with hwritten
    · exact ⟨hc.getElem?_data hwritten.2, c.range, List.mem_cons_self, hwritten.2⟩
    · by_cases hold : t.Missing i
      · exact absurd ⟨hold, fun hr => hwritten ⟨hold, hr⟩⟩ hm
      · exact (h.cons c.range).known i hi hold

theorem Holds.buffer_eq (h : t.Holds b ranges) (hc : t.isComplete = true) : t.buffer = b := by
  have hnone := h.toSane.isComplete_iff.1 hc
  refine List.ext_getElem? fun i => ?_
  by_cases hi : i < b.length
  · exact (h.known i hi (hnone i)).1
  · have hlength : t.buffer.length = b.length := h.length.trans h.total
    rw [List.getElem?_eq_none (Nat.le_of_not_lt hi),
      List.getElem?_eq_none (hlength ▸ Nat.le_of_not_lt hi)]

theorem Holds.not_isComplete (h : t.Holds b ranges) (hc : ¬ Complete b.length ranges) :
    t.isComplete = false := by
  rw [← Bool.not_eq_true, h.toSane.isComplete_iff]
  exact fun hnone => hc fun i hi => (h.known i hi (hnone i)).2

end Transfer

namespace Assembler

variable {a : Assembler} {hash : Bytes32} {t : Transfer}

def feed (a : Assembler) (c : Part) : PartOutcome × Assembler :=
  a.accept c.now c.hash c.totalSize c.offset c.data

def afterParts (a : Assembler) (cs : List Part) : Assembler :=
  cs.foldl (fun a c => (a.feed c).2) a

theorem mem_sweep {now : Nat} {e : Bytes32 × Transfer} (h : e ∈ (a.sweep now).transfers) :
    e ∈ a.transfers := by
  rw [sweep] at h
  split_ifs at h
  · exact List.mem_of_mem_filter h
  · exact h

theorem get?_sweep {now : Nat} (h : a.get? hash = some t) (hnow : now < t.deadline) :
    (a.sweep now).get? hash = some t := by
  rw [sweep]
  split_ifs
  · obtain ⟨l, l', hl, hfirst⟩ := List.lookup_eq_some_iff.1 h
    refine List.lookup_eq_some_iff.2
      ⟨l.filter fun e => now < e.2.deadline, l'.filter fun e => now < e.2.deadline, ?_, ?_⟩
    · simp [hl, hnow]
    · exact fun e he => hfirst e (List.mem_of_mem_filter he)
  · exact h

theorem mem_erase {e : Bytes32 × Transfer} :
    e ∈ (a.erase hash).transfers ↔ e ∈ a.transfers ∧ e.1 ≠ hash := by
  simp [erase]

theorem mem_put {e : Bytes32 × Transfer} : e ∈ (a.put hash t).transfers ↔
    e = (hash, t) ∨ e ∈ a.transfers ∧ e.1 ≠ hash := by
  rw [put, List.mem_cons, mem_erase]

theorem get?_put (a : Assembler) (hash : Bytes32) (t : Transfer) :
    (a.put hash t).get? hash = some t := by
  simp [get?, put]

theorem get?_erase (a : Assembler) (hash : Bytes32) : (a.erase hash).get? hash = none := by
  refine List.lookup_eq_none_iff.2 fun e he => ?_
  simpa using Ne.symm (mem_erase.1 he).2

theorem get?_erase_of_ne {other : Bytes32} (h : hash ≠ other) :
    (a.erase other).get? hash = a.get? hash := by
  simp only [get?, erase]
  induction a.transfers with
  | nil => rfl
  | cons e l ih =>
    by_cases he : e.1 = other
    · have hne : (hash == e.1) = false := by simpa [he] using h
      rw [List.filter_cons_of_neg (by simp [he]), ih, List.lookup_cons, hne]
    · rw [List.filter_cons_of_pos (by simpa using he), List.lookup_cons, List.lookup_cons, ih]

theorem get?_put_of_ne {other : Bytes32} (h : hash ≠ other) :
    (a.put other t).get? hash = a.get? hash := by
  have hne : (hash == other) = false := by simpa using h
  calc (a.put other t).get? hash = (a.erase other).get? hash := by
        simp only [get?, put, List.lookup_cons, hne]
    _ = a.get? hash := get?_erase_of_ne h

/-- What the assembler has of the bytes `b` at some time, given what has been received. -/
structure Tracks (b : Bytes) (clock : Nat) (r : Receipt) (a : Assembler) : Prop where
  entries : ∀ t, (sha256 b, t) ∈ a.transfers → t.Holds b r.ranges
  fresh : r.since = none → ∀ i, ¬ Covers r.ranges i
  current : ∀ s, r.since = some s → clock < s + a.ttl → ∃ t, a.get? (sha256 b) = some t ∧
    t.deadline = s + a.ttl ∧ ∀ i, t.Missing i → ¬ Covers r.ranges i
  incomplete : ¬ Complete b.length r.ranges

variable {b : Bytes} {clock : Nat} {r : Receipt} {c : Part} {n : Nat}

theorem tracks_start (hb : 0 < b.length) (maxBytes ttl : Nat) :
    Tracks b clock {} { maxBytes, ttl } where
  entries _ h := by cases h
  fresh _ := by simp [Covers]
  current _ h := by cases h
  incomplete := not_complete_nil hb

/-- A part of another message neither touches the transfer nor lets it go before its time. -/
theorem feed_other {hash : Bytes32} (h : c.hash ≠ hash) :
    (∀ t, (hash, t) ∈ (a.feed c).2.transfers → (hash, t) ∈ a.transfers) ∧
      ∀ t, a.get? hash = some t → c.now < t.deadline → (a.feed c).2.get? hash = some t := by
  have hne : hash ≠ c.hash := h.symm
  have herase (t : Transfer) (ht : (hash, t) ∈ ((a.sweep c.now).erase c.hash).transfers) :
      (hash, t) ∈ a.transfers := mem_sweep (mem_erase.1 ht).1
  have hput (t' t : Transfer) (ht : (hash, t) ∈ ((a.sweep c.now).put c.hash t').transfers) :
      (hash, t) ∈ a.transfers := by
    obtain heq | hold := mem_put.1 ht
    · exact absurd (congrArg Prod.fst heq) hne
    · exact mem_sweep hold.1
  simp only [feed, accept]
  split
  · exact ⟨fun _ h => h, fun _ h _ => h⟩
  · split_ifs
    · exact ⟨herase, fun _ h hd => (get?_erase_of_ne hne).trans (get?_sweep h hd)⟩
    · exact ⟨hput _, fun _ h hd => (get?_put_of_ne hne).trans (get?_sweep h hd)⟩
    · exact ⟨herase, fun _ h hd => (get?_erase_of_ne hne).trans (get?_sweep h hd)⟩
    · exact ⟨hput _, fun _ h hd => (get?_put_of_ne hne).trans (get?_sweep h hd)⟩

theorem settings_sweep {now : Nat} :
    (a.sweep now).ttl = a.ttl ∧ (a.sweep now).maxBytes = a.maxBytes := by
  rw [sweep]
  split_ifs <;> exact ⟨rfl, rfl⟩

theorem settings_feed (a : Assembler) (c : Part) :
    (a.feed c).2.ttl = a.ttl ∧ (a.feed c).2.maxBytes = a.maxBytes := by
  simp only [feed, accept]
  split
  · exact ⟨rfl, rfl⟩
  · split_ifs <;> exact settings_sweep

theorem Tracks.feed_other (h : Tracks b clock r a) (hhash : c.hash ≠ sha256 b)
    (hclock : clock ≤ c.now) : Tracks b c.now r (a.feed c).2 := by
  obtain ⟨hentries, hget⟩ := Assembler.feed_other (a := a) hhash
  refine ⟨fun t ht => h.entries t (hentries t ht), h.fresh, fun s hs hnow => ?_, h.incomplete⟩
  rw [(settings_feed a c).1] at hnow ⊢
  obtain ⟨t, ht, hdeadline, hmissing⟩ := h.current s hs (Nat.lt_of_le_of_lt hclock hnow)
  exact ⟨t, hget t ht (hdeadline ▸ hnow), hdeadline, hmissing⟩

/-- The transfer that a part of a message of `n` bytes goes to. -/
def target (a : Assembler) (n : Nat) (c : Part) : Transfer :=
  ((a.sweep c.now).get? c.hash).getD (.start n (c.now + a.ttl))

theorem bounds?_of (hc : c.Of b) (hb : 0 < b.length) (hmax : b.length ≤ a.maxBytes) :
    a.bounds? c.totalSize c.offset c.data = some (b.length, c.range.start) := by
  have hsize := hc.totalSize
  have hwithin := hc.within
  have hoffset := hc.offset
  simp only [Part.range] at hwithin ⊢
  rw [bounds?, hsize, Int.toNat_natCast, if_pos ⟨by omega, hmax, hoffset, hwithin⟩]

/-- What a true piece of the message does, by the transfer that it goes to. -/
theorem feed_of (hc : c.Of b) (hb : 0 < b.length) (hmax : b.length ≤ a.maxBytes)
    (htotal : (a.target b.length c).total = b.length) :
    a.feed c =
      let t := a.target b.length c
      let t' := (t.fill c.range.start c.data).2
      if (t.fill c.range.start c.data).1 = 0 then (.nothing, (a.sweep c.now).put c.hash t)
      else if t'.isComplete then (finish c.hash t'.buffer, (a.sweep c.now).erase c.hash)
      else (.nothing, (a.sweep c.now).put c.hash { t' with deadline := c.now + a.ttl }) := by
  simp only [feed, accept, bounds?_of hc hb hmax, settings_sweep.1]
  exact if_neg (not_not.2 htotal)

theorem Tracks.target_holds (h : Tracks b clock r a) (hhash : c.hash = sha256 b)
    (hb : 0 < b.length) : (a.target b.length c).Holds b r.ranges := by
  rw [target, hhash]
  cases hget : (a.sweep c.now).get? (sha256 b) with
  | none => exact Transfer.holds_start hb _
  | some t => exact h.entries t (mem_sweep (mem_of_get? hget))

theorem Tracks.target_current (h : Tracks b clock r a) (hhash : c.hash = sha256 b)
    (hclock : clock ≤ c.now) {s : Nat} (hs : r.since = some s) (hnow : c.now < s + a.ttl) :
    (a.target b.length c).deadline = s + a.ttl ∧
      ∀ i, (a.target b.length c).Missing i → ¬ Covers r.ranges i := by
  obtain ⟨t, ht, hdeadline, hmissing⟩ := h.current s hs (Nat.lt_of_le_of_lt hclock hnow)
  have hkept := get?_sweep ht (hdeadline ▸ hnow)
  rw [target, hhash, hkept]
  exact ⟨hdeadline, hmissing⟩

theorem tracks_put {now : Nat} (hholds : t.Holds b r.ranges)
    (hfresh : r.since = none → ∀ i, ¬ Covers r.ranges i)
    (hcurrent : ∀ s, r.since = some s → now < s + a.ttl → t.deadline = s + a.ttl ∧
      ∀ i, t.Missing i → ¬ Covers r.ranges i)
    (hincomplete : ¬ Complete b.length r.ranges) :
    Tracks b now r ((a.sweep now).put (sha256 b) t) where
  entries t' ht' := by
    obtain heq | hold := mem_put.1 ht'
    · exact (Prod.mk.inj heq).2 ▸ hholds
    · exact absurd rfl hold.2
  fresh := hfresh
  current s hs hnow := by
    have httl : ((a.sweep now).put (sha256 b) t).ttl = a.ttl := settings_sweep.1
    rw [httl] at hnow ⊢
    exact ⟨t, get?_put _ _ _, hcurrent s hs hnow⟩
  incomplete := hincomplete

theorem tracks_erase {now : Nat} (hb : 0 < b.length) :
    Tracks b now {} ((a.sweep now).erase (sha256 b)) where
  entries t ht := absurd rfl (mem_erase.1 ht).2
  fresh _ := by simp [Covers]
  current _ h := by cases h
  incomplete := not_complete_nil hb

/-- What is right for a part of the message: it gives the message, and ends the transfer, if it
completes it, and nothing otherwise. -/
structure Handles (b : Bytes) (r : Receipt) (a : Assembler) (c : Part) : Prop where
  outcome : (a.feed c).1 = if r.Completes b.length c then finish (sha256 b) b else .nothing
  tracks : Tracks b c.now (r.add b.length c) (a.feed c).2
  closed : r.Completes b.length c → (a.feed c).2.get? (sha256 b) = none

section Own

variable (h : Tracks b clock r a) (hc : c.Of b) (hhash : c.hash = sha256 b) (hb : 0 < b.length)
  (hmax : b.length ≤ a.maxBytes) (hclock : clock ≤ c.now)
include h hc hhash hb hmax hclock

/-- A part with something new finds the transfer with all that has been received. -/
theorem Tracks.handles_new (hnew : r.IsNew c)
    (htime : ∀ s, r.since = some s → c.now < s + a.ttl) : Handles b r a c := by
  have hholds := h.target_holds hhash hb
  have hmissing : ∀ i, (a.target b.length c).Missing i → ¬ Covers r.ranges i := by
    cases hs : r.since with
    | none => exact fun i _ => h.fresh hs i
    | some s => exact (h.target_current hhash hclock hs (htime s hs)).2
  have hfeed := feed_of hc hb hmax hholds.total
  generalize a.target b.length c = t at hholds hmissing hfeed
  have hfilled := hholds.fill hc
  have hwritten : (t.fill c.range.start c.data).1 ≠ 0 := by
    rw [Ne, Transfer.fst_fill_eq_zero_iff]
    intro hnone
    obtain ⟨i, -, hi, huncovered⟩ := hnew
    refine hnone i ?_ hi
    by_contra hm
    exact huncovered (hholds.known i (Nat.lt_of_lt_of_le hi.2 hc.within) hm).2
  have hleft : ∀ i, (t.fill c.range.start c.data).2.Missing i →
      ¬ Covers (c.range :: r.ranges) i := by
    intro i hi
    obtain ⟨hm, hout⟩ := Transfer.missing_fill.1 hi
    exact fun hcovers => (covers_cons.1 hcovers).elim hout (hmissing i hm)
  dsimp only at hfeed
  rw [if_neg hwritten, hhash] at hfeed
  by_cases hall : r.Completes b.length c
  · have hcomplete : (t.fill c.range.start c.data).2.isComplete = true :=
      hfilled.isComplete_iff.2 fun i hi => hleft i hi (hall i (hfilled.lt_of_missing hi))
    rw [if_pos hcomplete, hfilled.buffer_eq hcomplete] at hfeed
    refine ⟨by rw [hfeed, if_pos hall], ?_, fun _ => by rw [hfeed, get?_erase]⟩
    rw [hfeed, Receipt.add, if_pos hall]
    exact tracks_erase hb
  · rw [if_neg (by simp [hfilled.not_isComplete hall])] at hfeed
    refine ⟨by rw [hfeed, if_neg hall], ?_, fun hcompletes => absurd hcompletes hall⟩
    rw [hfeed, Receipt.add, if_neg hall, if_pos hnew]
    refine tracks_put (hfilled.extend _) (by simp) (fun s hs _ => ⟨?_, hleft⟩) hall
    rw [← Option.some.inj hs]

/-- A part with nothing new gives nothing, even where the transfer has been lost. -/
theorem Tracks.handles_old (hold : ¬ r.IsNew c) : Handles b r a c := by
  have hholds := h.target_holds hhash hb
  have hcurrent := fun s => h.target_current (s := s) hhash hclock
  have hfeed := feed_of hc hb hmax hholds.total
  generalize a.target b.length c = t at hholds hcurrent hfeed
  have hfilled := hholds.fill hc
  have hall : ¬ r.Completes b.length c :=
    fun hcompletes => hold (Receipt.isNew_of_completes hcompletes h.incomplete)
  have hcovers (i : Nat) : Covers (c.range :: r.ranges) i ↔ Covers r.ranges i :=
    covers_cons.trans (or_iff_right_of_imp (Receipt.covers_of_not_isNew hold))
  have hadd : r.add b.length c = ⟨c.range :: r.ranges, r.since⟩ := by
    rw [Receipt.add, if_neg hall, if_neg hold]
  have hfresh : r.since = none → ∀ i, ¬ Covers (c.range :: r.ranges) i := by
    intro hs i
    rw [hcovers]
    exact h.fresh hs i
  dsimp only at hfeed
  rw [hhash] at hfeed
  by_cases hwritten : (t.fill c.range.start c.data).1 = 0
  · rw [if_pos hwritten] at hfeed
    refine ⟨by rw [hfeed, if_neg hall], ?_, fun hcompletes => absurd hcompletes hall⟩
    rw [hfeed, hadd]
    refine tracks_put (hholds.cons _) hfresh (fun s hs hnow => ?_) hall
    obtain ⟨hdeadline, hmissing⟩ := hcurrent s hs hnow
    refine ⟨hdeadline, fun i hi => ?_⟩
    rw [hcovers]
    exact hmissing i hi
  · -- Bytes are written only where the transfer had expired and has lost what was received.
    rw [if_neg hwritten, if_neg (by simp [hfilled.not_isComplete hall])] at hfeed
    refine ⟨by rw [hfeed, if_neg hall], ?_, fun hcompletes => absurd hcompletes hall⟩
    rw [hfeed, hadd]
    refine tracks_put (hfilled.extend _) hfresh (fun s hs hnow => absurd ?_ hwritten) hall
    refine Transfer.fst_fill_eq_zero_iff.2 fun i hi hr => ?_
    exact (hcurrent s hs hnow).2 i hi (Receipt.covers_of_not_isNew hold hr)

end Own

theorem Tracks.later (h : Tracks b clock r a) {clock' : Nat} (hle : clock ≤ clock') :
    Tracks b clock' r a where
  entries := h.entries
  fresh := h.fresh
  current s hs hnow := h.current s hs (Nat.lt_of_le_of_lt hle hnow)
  incomplete := h.incomplete

theorem afterParts_append (a : Assembler) (cs : List Part) (c : Part) :
    a.afterParts (cs ++ [c]) = ((a.afterParts cs).feed c).2 := by
  simp [afterParts]

theorem settings_afterParts (a : Assembler) (cs : List Part) :
    (a.afterParts cs).ttl = a.ttl ∧ (a.afterParts cs).maxBytes = a.maxBytes := by
  induction cs generalizing a with
  | nil => exact ⟨rfl, rfl⟩
  | cons c cs ih =>
    obtain ⟨httl, hmax⟩ := ih (a.feed c).2
    exact ⟨httl.trans (settings_feed a c).1, hmax.trans (settings_feed a c).2⟩

theorem finish_encode {m : Message} (h : m.payload.length < Reader.lengthLimit) :
    finish (sha256 m.encode) m.encode = .message m := by
  have hdecode : Message.decode m.encode = .ok m := Reader.whole_of_reads (Message.reads h)
  rw [finish, if_pos rfl, hdecode]

section Run

variable {cs before : List Part} {maxBytes ttl : Nat} (hb : 0 < b.length)
  (hmax : b.length ≤ maxBytes)
include hb hmax

/-- Given what the parts before have left, a part of the message is handled right. -/
theorem handles_next (hcs : Orderly b ttl cs) (hcome : before ++ [c] <+: cs)
    (hhash : c.hash = sha256 b)
    (h : Tracks b c.now (Receipt.ofParts b before)
      (({ maxBytes, ttl } : Assembler).afterParts before)) :
    Handles b (Receipt.ofParts b before) (({ maxBytes, ttl } : Assembler).afterParts before) c := by
  obtain ⟨httl, hbytes⟩ := settings_afterParts { maxBytes, ttl } before
  have hc : c.Of b := hcs.pieces c (hcome.subset (by simp)) hhash
  have hle := hmax.trans_eq hbytes.symm
  by_cases hnew : (Receipt.ofParts b before).IsNew c
  · refine h.handles_new hc hhash hb hle (Nat.le_refl _) hnew ?_
    rw [httl]
    exact hcs.inTime before c hcome hhash hnew
  · exact h.handles_old hc hhash hb hle (Nat.le_refl _) hnew

/-- The assembler keeps what has been received, as of any time after the last part. -/
theorem tracks_afterParts (hcs : Orderly b ttl cs) (hbefore : before <+: cs)
    (hclock : ∀ c ∈ before, c.now ≤ clock) :
    Tracks b clock (Receipt.ofParts b before)
      (({ maxBytes, ttl } : Assembler).afterParts before) := by
  induction before using List.reverseRecOn generalizing clock with
  | nil => exact tracks_start hb maxBytes ttl
  | append_singleton before c ih =>
    have hnow := hclock c (by simp)
    have hearlier : ∀ c' ∈ before, c'.now ≤ c.now := fun c' hc' =>
      (List.pairwise_append.1 (hcs.inOrder.sublist hbefore.sublist)).2.2 c' hc' c (by simp)
    have h := ih ((List.prefix_append before [c]).trans hbefore) hearlier
    have hreceipt : Receipt.ofParts b (before ++ [c]) =
        if c.hash = sha256 b then (Receipt.ofParts b before).add b.length c
        else Receipt.ofParts b before := by
      simp [Receipt.ofParts]
    rw [afterParts_append, hreceipt]
    split_ifs with hhash
    · exact (handles_next hb hmax hcs hbefore hhash h).tracks.later hnow
    · exact (h.feed_other hhash (Nat.le_refl _)).later hnow

end Run

/-- However the parts of a message come, its part answers with the message exactly if with it the
parts since the start, or since the message was last complete, first cover all of the message; then
no transfer of it is left. -/
theorem reassembles_in_any_order {m : Message} {maxBytes ttl : Nat} {cs before : List Part}
    (hm : m.payload.length < Reader.lengthLimit) (hmax : m.encode.length ≤ maxBytes)
    (hcs : Orderly m.encode ttl cs) (hcome : before ++ [c] <+: cs)
    (hhash : c.hash = sha256 m.encode) :
    let a := ({ maxBytes, ttl } : Assembler).afterParts before
    let r := Receipt.ofParts m.encode before
    ¬ Complete m.encode.length r.ranges ∧
      (a.feed c).1 = (if r.Completes m.encode.length c then .message m else .nothing) ∧
      (r.Completes m.encode.length c → (a.feed c).2.get? (sha256 m.encode) = none) := by
  intro a r
  have hb : 0 < m.encode.length := by
    rw [Message.length_encode, Message.encodedLength]
    exact Nat.lt_add_right _ (by decide)
  have hbefore : before <+: cs := (List.prefix_append before [c]).trans hcome
  have hearlier : ∀ c' ∈ before, c'.now ≤ c.now := fun c' hc' =>
    (List.pairwise_append.1 (hcs.inOrder.sublist hcome.sublist)).2.2 c' hc' c (by simp)
  have htracks := tracks_afterParts hb hmax hcs hbefore hearlier
  have hhandles := handles_next hb hmax hcs hcome hhash htracks
  refine ⟨htracks.incomplete, ?_, hhandles.closed⟩
  rw [← finish_encode hm]
  exact hhandles.outcome

/-- The last bytes come first, a part of another message between, and the parts overlap. -/
theorem reassembles_in_any_order_overlapping :
    let m : Message := .custom [1, 2, 3, 4, 5]
    let part (now : Nat) (offset : Int32) (start length : Nat) : Part :=
      ⟨now, sha256 m.encode, 12, offset, Bytes.slice m.encode start length⟩
    let other : Part := ⟨1, Vector.replicate 32 0, 3, 0, [7, 7, 7]⟩
    let before := [part 0 8 8 4, other, part 2 0 0 5, part 3 2 2 2]
    let a := ({ maxBytes := 64, ttl := 10 } : Assembler).afterParts before
    Orderly m.encode 10 (before ++ [part 4 3 3 6]) ∧
      (a.feed (part 4 3 3 6)).1 = .message m ∧
      (a.feed (part 4 3 3 6)).2.get? (sha256 m.encode) = none := by
  intro m part other before a
  have horderly : Orderly m.encode 10 (before ++ [part 4 3 3 6]) := by
    refine ⟨by decide +kernel, by decide +kernel, fun before' c hcome _ _ s _ => ?_⟩
    have hsoon : ∀ c ∈ before ++ [part 4 3 3 6], c.now < 10 := by decide +kernel
    exact Nat.lt_add_left s (hsoon c (hcome.subset (by simp)))
  have hcompletes : (Receipt.ofParts m.encode before).Completes m.encode.length (part 4 3 3 6) := by
    decide +kernel
  have hmax : m.encode.length ≤ 64 := by decide
  obtain ⟨-, houtcome, hclosed⟩ :=
    reassembles_in_any_order (m := m) (by decide) hmax horderly
      (List.prefix_refl _) rfl
  exact ⟨horderly, houtcome.trans (if_pos hcompletes), hclosed hcompletes⟩

end Assembler

end Adnl
