import Adnl.Proofs.Reassembly.Assembly

/-! # What the gaps of a transfer stand for

A transfer does not remember what filled it. Its gaps are the runs of positions that nothing has
covered, in order and apart from one another, and its buffer holds at every other position the byte
that came first. The gaps are gone through one after another, and no copy reaches out of the buffer
or out of the data. So it is for every transfer that an assembler has open.
-/
namespace Adnl

/-- Data for a transfer, and the position at which it starts. -/
structure Filling where
  start : Nat
  data : Bytes
deriving DecidableEq, Repr

namespace Filling

def range (f : Filling) : Gap := ⟨f.start, f.start + f.data.length⟩

/-- The byte that is due at a position: of the first filling to cover it, zero as long as none
does. -/
def byteAt (fs : List Filling) (i : Nat) : UInt8 :=
  match fs.find? fun f => f.range.Has i with
  | some f => f.data.getD (i - f.start) 0
  | none => 0

/-- How many of the first `n` positions a filling is the first to cover. -/
def newlyCovered (n : Nat) (fs : List Filling) (f : Filling) : Nat :=
  ((Finset.range n).filter fun i => f.range.Has i ∧ ¬ Covers (fs.map range) i).card

variable {fs : List Filling} {f : Filling} {i : Nat}

theorem covers_iff : Covers (fs.map range) i ↔ ∃ f ∈ fs, f.range.Has i := by
  simp [Covers]

theorem covers_concat :
    Covers ((fs ++ [f]).map range) i ↔ Covers (fs.map range) i ∨ f.range.Has i := by
  simp only [covers_iff, List.mem_append, List.mem_singleton, or_and_right, exists_or,
    exists_eq_left]

theorem byteAt_concat_of_covers (h : Covers (fs.map range) i) :
    byteAt (fs ++ [f]) i = byteAt fs i := by
  obtain ⟨first, hfirst⟩ : ∃ first, (fs.find? fun f => f.range.Has i) = some first := by
    rw [← Option.isSome_iff_exists, List.find?_isSome]
    simpa [covers_iff] using h
  simp only [byteAt, List.find?_append, hfirst, Option.some_or]

theorem find?_of_not_covers (h : ¬ Covers (fs.map range) i) :
    (fs.find? fun f => f.range.Has i) = none := by
  rw [List.find?_eq_none]
  simpa [covers_iff] using h

theorem byteAt_of_not_covers (h : ¬ Covers (fs.map range) i) : byteAt fs i = 0 := by
  simp only [byteAt, find?_of_not_covers h]

theorem byteAt_concat_of_not_covers (h : ¬ Covers (fs.map range) i) :
    byteAt (fs ++ [f]) i = if f.range.Has i then f.data.getD (i - f.start) 0 else 0 := by
  simp only [byteAt, List.find?_append, find?_of_not_covers h, Option.none_or,
    List.find?_singleton, decide_eq_true_eq]
  split_ifs <;> rfl

end Filling

namespace Gap

theorem bounds_of_mem_minus {g h r : Gap} (hr : r ∈ g.minus h) :
    g.start ≤ r.start ∧ r.stop ≤ g.stop := by
  rw [minus] at hr
  split_ifs at hr with hm
  · rw [List.mem_singleton] at hr
    exact hr ▸ ⟨Nat.le_refl _, Nat.le_refl _⟩
  · rw [Bool.not_eq_true, isEmpty_eq_false] at hm
    simp only [List.mem_filter, List.mem_cons, List.not_mem_nil, or_false] at hr
    simp only [meet] at hm hr
    obtain ⟨rfl | rfl, -⟩ := hr
    · exact ⟨Nat.le_refl _, by dsimp only; omega⟩
    · exact ⟨by dsimp only; omega, Nat.le_refl _⟩

/-- A gap that a range hits leaves what lies before the range and what lies behind it. -/
theorem minus_of_hit {g h : Gap} (hm : (g.meet h).isEmpty = false) : g.minus h =
    (if g.start < (g.meet h).start then [⟨g.start, (g.meet h).start⟩] else []) ++
      (if (g.meet h).stop < g.stop then [⟨(g.meet h).stop, g.stop⟩] else []) := by
  rw [minus]
  simp only [hm, Bool.false_eq_true, if_false]
  simp only [List.filter_cons, List.filter_nil, isEmpty, Bool.not_eq_true',
    decide_eq_false_iff_not, Nat.not_le]
  split_ifs <;> rfl

theorem pairwise_minus (g h : Gap) : (g.minus h).Pairwise fun r s => r.stop < s.start := by
  rw [minus]
  split_ifs with hm
  · exact List.pairwise_singleton _ _
  · rw [Bool.not_eq_true, isEmpty_eq_false] at hm
    refine List.Pairwise.filter _ ?_
    exact List.pairwise_pair.2 hm

end Gap

namespace Transfer

variable {t : Transfer} {start n : Nat} {data : Bytes}

theorem ordered_fill (h : t.gaps.Pairwise fun g g' => g.stop < g'.start) :
    (t.fill start data).2.gaps.Pairwise fun g g' => g.stop < g'.start := by
  refine List.pairwise_flatMap.2 ⟨fun g _ => Gap.pairwise_minus g _, h.imp fun hlt r hr s hs => ?_⟩
  have hr := (Gap.bounds_of_mem_minus hr).2
  have hs := (Gap.bounds_of_mem_minus hs).1
  omega

theorem ordered_pieces (h : t.gaps.Pairwise fun g g' => g.stop < g'.start) (range : Gap) :
    (t.pieces range).Pairwise fun g g' => g.stop < g'.start := by
  refine (List.pairwise_map.2 (h.imp fun hlt => ?_)).filter _
  simp only [Gap.meet]
  omega

/-- The sizes of ranges in order add up to the number of their positions. -/
theorem total_size_eq_card {gs : List Gap} (hordered : gs.Pairwise fun g g' => g.stop < g'.start)
    (hwithin : ∀ g ∈ gs, g.stop ≤ n) : Bytes.total (gs.map Gap.size) =
      ((Finset.range n).filter fun i => Covers gs i).card := by
  induction gs with
  | nil => simp [Bytes.total, Covers]
  | cons g gs ih =>
    obtain ⟨hapart, hordered⟩ := List.pairwise_cons.1 hordered
    obtain ⟨hg, hgs⟩ := List.forall_mem_cons.1 hwithin
    have hfirst : (Finset.range n).filter g.Has = Finset.Ico g.start g.stop := by
      ext i
      simp only [Finset.mem_filter, Finset.mem_range, Gap.Has, Finset.mem_Ico]
      omega
    have hdisjoint : Disjoint ((Finset.range n).filter g.Has)
        ((Finset.range n).filter fun i => Covers gs i) := by
      refine Finset.disjoint_filter.2 fun i _ hi => ?_
      rintro ⟨g', hg', hi'⟩
      have := hapart g' hg'
      simp only [Gap.Has] at hi hi'
      omega
    have hboth : ((Finset.range n).filter fun i => Covers (g :: gs) i) =
        (Finset.range n).filter g.Has ∪ (Finset.range n).filter fun i => Covers gs i := by
      rw [← Finset.filter_or]
      simp only [covers_cons]
    rw [hboth, Finset.card_union_of_disjoint hdisjoint, hfirst, Nat.card_Ico, ← ih hordered hgs]
    rfl

def piecesOf (gs : List Gap) (range : Gap) : List Gap :=
  (gs.map (·.meet range)).filter fun g => !g.isEmpty

/-- A walk through the gaps: the buffer so far, how many bytes were copied, and the gaps left
behind. -/
structure Walk where
  buffer : Bytes
  written : Nat
  gaps : List Gap

/-- Copies the data for a piece, if the buffer and the data reach that far. -/
def copy? (f : Filling) (buffer : Bytes) (m : Gap) : Option Bytes :=
  if f.start ≤ m.start ∧ m.start ≤ m.stop ∧ m.stop ≤ f.range.stop ∧ m.stop ≤ buffer.length then
    some (splice buffer m.start (piece f.start f.data m))
  else none

/-- Passes a gap, which is kept, or filled between what is left on its two sides. -/
def Walk.pass? (f : Filling) (w : Walk) (g : Gap) : Option Walk :=
  let m := g.meet f.range
  if m.isEmpty then some { w with gaps := w.gaps ++ [g] }
  else do
    let buffer ← copy? f w.buffer m
    let before := if g.start < m.start then [⟨g.start, m.start⟩] else []
    let after := if m.stop < g.stop then [⟨m.stop, g.stop⟩] else []
    return ⟨buffer, w.written + m.size, w.gaps ++ (before ++ after)⟩

/-- Fills gap by gap; nothing if a copy would reach out of the buffer or of the data. -/
def walk? (t : Transfer) (f : Filling) : Option (Nat × Transfer) := do
  let w ← t.gaps.foldlM (Walk.pass? f) ⟨t.buffer, 0, []⟩
  return (w.written, { t with buffer := w.buffer, gaps := w.gaps })

variable {w : Walk} {f : Filling} {g : Gap} {gs : List Gap}

theorem piecesOf_cons (range : Gap) : piecesOf (g :: gs) range =
    if (g.meet range).isEmpty then piecesOf gs range else g.meet range :: piecesOf gs range := by
  cases h : (g.meet range).isEmpty <;> simp [piecesOf, h]

theorem bounds_of_hit (hm : (g.meet f.range).isEmpty = false) :
    f.start ≤ (g.meet f.range).start ∧ (g.meet f.range).start ≤ (g.meet f.range).stop ∧
      (g.meet f.range).stop ≤ f.range.stop ∧ (g.meet f.range).stop ≤ g.stop := by
  rw [Gap.isEmpty_eq_false] at hm
  simp only [Gap.meet, Filling.range] at hm ⊢
  omega

theorem pass?_of_miss (hm : (g.meet f.range).isEmpty = true) :
    w.pass? f g = some { w with gaps := w.gaps ++ g.minus f.range } := by
  simp only [Walk.pass?, Gap.minus, hm, if_true]

theorem pass?_of_hit (hm : (g.meet f.range).isEmpty = false) (hg : g.stop ≤ w.buffer.length) :
    w.pass? f g = some ⟨splice w.buffer (g.meet f.range).start (piece f.start f.data (g.meet f.range)),
      w.written + (g.meet f.range).size, w.gaps ++ g.minus f.range⟩ := by
  obtain ⟨hlow, hle, hhigh, hstop⟩ := bounds_of_hit hm
  rw [Gap.minus_of_hit hm]
  simp only [Walk.pass?, copy?, hm, hlow, hle, hhigh, hstop.trans hg, Bool.false_eq_true, if_false,
    and_self, if_true, Option.bind_eq_bind, Option.bind_some]
  rfl

theorem length_splice_piece {buffer : Bytes} (hlow : f.start ≤ g.start) (hle : g.start ≤ g.stop)
    (hhigh : g.stop ≤ f.range.stop) (hbuffer : g.stop ≤ buffer.length) :
    (splice buffer g.start (piece f.start f.data g)).length = buffer.length := by
  refine length_splice ?_
  rwa [length_piece hlow hhigh, Gap.size, Nat.add_sub_cancel' hle]

/-- The walk ends with every piece copied and counted, and with what is left of every gap. -/
theorem foldlM_pass? (h : ∀ g ∈ gs, g.stop ≤ w.buffer.length) : gs.foldlM (Walk.pass? f) w =
    some ⟨(piecesOf gs f.range).foldl (fun b m => splice b m.start (piece f.start f.data m)) w.buffer,
      w.written + Bytes.total ((piecesOf gs f.range).map Gap.size),
      w.gaps ++ gs.flatMap (·.minus f.range)⟩ := by
  induction gs generalizing w with
  | nil => simp [piecesOf, Bytes.total]
  | cons g gs ih =>
    obtain ⟨hg, hgs⟩ := List.forall_mem_cons.1 h
    rw [List.foldlM_cons, piecesOf_cons]
    cases hm : (g.meet f.range).isEmpty with
    | true =>
      have hrest := ih (w := { w with gaps := w.gaps ++ g.minus f.range }) hgs
      rw [pass?_of_miss hm, Option.bind_eq_bind, Option.bind_some, hrest]
      simp only [if_true, List.flatMap_cons, List.append_assoc]
    | false =>
      obtain ⟨hlow, hle, hhigh, hstop⟩ := bounds_of_hit hm
      have hlength := length_splice_piece hlow hle hhigh (hstop.trans hg)
      rw [pass?_of_hit hm hg, Option.bind_eq_bind, Option.bind_some,
        ih fun g' hg' => (hgs g' hg').trans_eq hlength.symm]
      simp only [Bool.false_eq_true, if_false, List.flatMap_cons, List.append_assoc,
        List.foldl_cons, List.map_cons, Bytes.total, Nat.add_assoc]

/-- As long as the gaps lie in the buffer, the walk comes to its end and fills what is to be
filled. -/
theorem walk?_eq (h : ∀ g ∈ t.gaps, g.stop ≤ t.buffer.length) :
    t.walk? f = some (t.fill f.start f.data) := by
  rw [walk?, foldlM_pass? h]
  simp only [Option.bind_eq_bind, Option.bind_some, Nat.zero_add, List.nil_append]
  rfl

def fillAll (t : Transfer) (fs : List Filling) : Transfer :=
  fs.foldl (fun t f => (t.fill f.start f.data).2) t

theorem fillAll_concat (fs : List Filling) :
    t.fillAll (fs ++ [f]) = ((t.fillAll fs).fill f.start f.data).2 :=
  List.foldl_concat ..

/-- The transfer of a message of `n` bytes, at least one, shows by its gaps what the fillings have
covered, and their bytes at the other positions. -/
structure Tallies (n : Nat) (fs : List Filling) (t : Transfer) : Prop extends t.Sane where
  total_eq : t.total = n
  ordered : t.gaps.Pairwise fun g g' => g.stop < g'.start
  missing : ∀ i, t.Missing i ↔ i < n ∧ ¬ Covers (fs.map Filling.range) i
  byte : ∀ i < n, t.buffer[i]? = some (Filling.byteAt fs i)

theorem tallies_start (h : 0 < n) (deadline : Nat) : (Transfer.start n deadline).Tallies n [] where
  toSane := sane_start h deadline
  total_eq := rfl
  ordered := List.pairwise_singleton _ _
  missing i := by simp [missing_start, Covers]
  byte i hi := by simp [Transfer.start, Filling.byteAt, hi]

theorem Tallies.fill {fs : List Filling} (h : t.Tallies n fs) :
    (t.fill f.start f.data).2.Tallies n (fs ++ [f]) where
  toSane := h.toSane.fill
  total_eq := h.total_eq
  ordered := ordered_fill h.ordered
  missing i := by
    rw [missing_fill, h.missing, Filling.covers_concat, not_or, and_assoc]
    rfl
  byte i hi := by
    have hbyte := h.toSane.getElem?_fill f.start f.data i
    by_cases hcovered : Covers (fs.map Filling.range) i
    · have hknown : ¬ t.Missing i := fun hm => ((h.missing i).1 hm).2 hcovered
      rw [hbyte, if_neg fun hnew => hknown hnew.1, h.byte i hi,
        Filling.byteAt_concat_of_covers hcovered]
    · have hmissing : t.Missing i := (h.missing i).2 ⟨hi, hcovered⟩
      rw [hbyte, Filling.byteAt_concat_of_not_covers hcovered]
      by_cases hnew : f.range.Has i
      · have hlt : i - f.start < f.data.length := by
          simp only [Gap.Has, Filling.range] at hnew
          omega
        rw [if_pos ⟨hmissing, hnew⟩, if_pos hnew, List.getD_eq_getElem?_getD,
          List.getElem?_eq_getElem hlt, Option.getD_some]
      · rw [if_neg fun hboth => hnew hboth.2, if_neg hnew, h.byte i hi,
          Filling.byteAt_of_not_covers hcovered]

theorem tallies_fillAll (h : 0 < n) (deadline : Nat) (fs : List Filling) :
    ((Transfer.start n deadline).fillAll fs).Tallies n fs := by
  induction fs using List.reverseRecOn with
  | nil => exact tallies_start h deadline
  | append_singleton fs f ih =>
    rw [fillAll_concat]
    exact ih.fill

theorem Tallies.fst_fill {fs : List Filling} (h : t.Tallies n fs) :
    (t.fill f.start f.data).1 = Filling.newlyCovered n fs f := by
  have hwithin : ∀ g ∈ t.pieces f.range, g.stop ≤ n := fun g hg =>
    (h.toSane.bounds_of_mem_pieces g hg).2.2.2.trans_eq (h.length.trans h.total_eq)
  have hcovers (i : Nat) : Covers (t.pieces f.range) i ↔
      (i < n ∧ ¬ Covers (fs.map Filling.range) i) ∧ f.range.Has i := by
    rw [Covers, exists_mem_pieces, h.missing]
  refine (total_size_eq_card (ordered_pieces h.ordered f.range) hwithin).trans ?_
  refine congrArg Finset.card (Finset.filter_congr fun i hi => ?_)
  rw [hcovers]
  have := Finset.mem_range.1 hi
  tauto

/-- What the gaps and the buffer tell of a message of `n` bytes after some fillings. -/
structure Accounted (n : Nat) (fs : List Filling) (t : Transfer) : Prop where
  ordered : t.gaps.Pairwise fun g g' => g.stop < g'.start
  /-- They lie within the message. None is empty, unless the message is. -/
  within : ∀ g ∈ t.gaps, g.stop ≤ n ∧ (0 < n → g.start < g.stop)
  missing : ∀ i, t.Missing i ↔ i < n ∧ ¬ Covers (fs.map Filling.range) i
  /-- A position holds the byte that came first, or zero. -/
  buffer : t.buffer = (List.range n).map (Filling.byteAt fs)
  complete : t.isComplete = true ↔ 0 < n ∧ Complete n (fs.map Filling.range)
  /-- The next filling stays in range, and tells how much is new. -/
  next : ∀ f : Filling, t.walk? f = some (t.fill f.start f.data) ∧
    (t.fill f.start f.data).1 = Filling.newlyCovered n fs f

theorem Tallies.accounted {fs : List Filling} (hpos : 0 < n) (h : t.Tallies n fs) :
    t.Accounted n fs where
  ordered := h.ordered
  within g hg := ⟨(h.gaps g hg).2.trans_eq h.total_eq, fun _ => (h.gaps g hg).1⟩
  missing := h.missing
  buffer := by
    have hlength : t.buffer.length = n := h.length.trans h.total_eq
    refine List.ext_getElem? fun i => ?_
    by_cases hi : i < n
    · simp [h.byte i hi, hi]
    · have hle : n ≤ i := Nat.le_of_not_lt hi
      rw [List.getElem?_eq_none (hlength.trans_le hle), List.getElem?_eq_none (by simpa using hle)]
  complete := by
    rw [h.toSane.isComplete_iff, and_iff_right hpos]
    simp only [h.missing, not_and, not_not, Complete]
  next f := ⟨walk?_eq fun g hg => (h.gaps g hg).2.trans_eq h.length.symm, h.fst_fill⟩

theorem fill_start_zero (deadline : Nat) (f : Filling) :
    (Transfer.start 0 deadline).fill f.start f.data = (0, Transfer.start 0 deadline) := by
  simp [fill, Transfer.start, Gap.meet, Gap.isEmpty, Gap.minus, Bytes.total]

theorem fillAll_start_zero (deadline : Nat) (fs : List Filling) :
    (Transfer.start 0 deadline).fillAll fs = Transfer.start 0 deadline := by
  induction fs using List.reverseRecOn with
  | nil => rfl
  | append_singleton fs f ih => rw [fillAll_concat, ih, fill_start_zero]

theorem accounted_start_zero (deadline : Nat) (fs : List Filling) :
    (Transfer.start 0 deadline).Accounted 0 fs where
  ordered := List.pairwise_singleton _ _
  within := by simp [Transfer.start]
  missing := by simp [missing_start]
  buffer := rfl
  complete := by simp [isComplete, Transfer.start]
  next f := by
    refine ⟨walk?_eq (by simp [Transfer.start]), ?_⟩
    rw [fill_start_zero]
    rfl

end Transfer

def Part.filling (c : Part) : Filling := ⟨c.range.start, c.data⟩

namespace Assembler

def fillings (cs : List Part) (hash : Bytes32) : List Filling :=
  (cs.filter fun c => c.hash = hash).map Part.filling

/-- The transfer of a message of some bytes shows what some of the parts that name its hash have
covered. -/
def Opened (cs : List Part) (hash : Bytes32) (t : Transfer) : Prop :=
  0 < t.total ∧ ∃ fs, fs.Sublist (fillings cs hash) ∧ t.Tallies t.total fs

variable {a : Assembler} {cs : List Part} {hash : Bytes32} {t : Transfer} {c : Part} {n : Nat}

theorem fillings_concat_self :
    fillings (cs ++ [c]) c.hash = fillings cs c.hash ++ [c.filling] := by
  simp [fillings]

theorem fillings_sublist_concat (c : Part) (hash : Bytes32) :
    (fillings cs hash).Sublist (fillings (cs ++ [c]) hash) :=
  ((List.sublist_append_left cs [c]).filter _).map _

theorem Opened.later (h : Opened cs hash t) (c : Part) : Opened (cs ++ [c]) hash t := by
  obtain ⟨hpos, fs, hfs, htallies⟩ := h
  exact ⟨hpos, fs, hfs.trans (fillings_sublist_concat c hash), htallies⟩

theorem opened_start (h : 0 < n) (deadline : Nat) : Opened cs hash (.start n deadline) :=
  ⟨h, [], List.nil_sublist _, Transfer.tallies_start h deadline⟩

theorem Opened.fill (h : Opened cs c.hash t) (deadline : Nat) :
    Opened (cs ++ [c]) c.hash { (t.fill c.range.start c.data).2 with deadline } := by
  obtain ⟨hpos, fs, hfs, htallies⟩ := h
  have hfilled := htallies.fill (f := c.filling)
  refine ⟨hpos, fs ++ [c.filling], ?_, ?_⟩
  · rw [fillings_concat_self]
    exact hfs.append_right _
  · exact ⟨⟨hfilled.length, hfilled.gaps⟩, rfl, hfilled.ordered, hfilled.missing, hfilled.byte⟩

theorem opened_put (h : ∀ e ∈ a.transfers, Opened cs e.1 e.2) (ht : Opened cs hash t) :
    ∀ e ∈ (a.put hash t).transfers, Opened cs e.1 e.2 := by
  intro e he
  obtain rfl | ⟨hold, -⟩ := mem_put.1 he
  · exact ht
  · exact h e hold

theorem opened_feed (h : ∀ e ∈ a.transfers, Opened cs e.1 e.2) (c : Part) :
    ∀ e ∈ (a.feed c).2.transfers, Opened (cs ++ [c]) e.1 e.2 := by
  have hswept : ∀ e ∈ (a.sweep c.now).transfers, Opened cs e.1 e.2 := fun e he =>
    h e (mem_sweep he)
  have hlater : ∀ e ∈ (a.sweep c.now).transfers, Opened (cs ++ [c]) e.1 e.2 := fun e he =>
    (hswept e he).later c
  have hends : ∀ e ∈ ((a.sweep c.now).erase c.hash).transfers, Opened (cs ++ [c]) e.1 e.2 :=
    fun e he => hlater e (mem_erase.1 he).1
  have htarget {t : Transfer} (ht : a.Meets c.now c.hash c.range.start c.data t) :
      Opened cs c.hash t := by
    cases ht with
    | stored hget => exact hswept _ (mem_of_get? hget)
    | opened deadline hpos => exact opened_start hpos deadline
  have haccepts := a.accepts c.now c.hash c.totalSize c.offset c.data
  rw [feed]
  generalize a.accept c.now c.hash c.totalSize c.offset c.data = r at haccepts ⊢
  cases haccepts with
  | outside => exact fun e he => (h e he).later c
  | clashes => exact hends
  | repeats ht => exact opened_put hlater ((htarget ht).later c)
  | continues ht deadline => exact opened_put hlater ((htarget ht).fill deadline)
  | completes => exact hends

theorem opened_afterParts (maxBytes ttl : Nat) (cs : List Part) :
    ∀ e ∈ (({ maxBytes, ttl } : Assembler).afterParts cs).transfers, Opened cs e.1 e.2 := by
  induction cs using List.reverseRecOn with
  | nil => exact nofun
  | append_singleton cs c ih =>
    rw [afterParts_append]
    exact opened_feed ih c

end Assembler

namespace Transfer

/-- Whatever fills a transfer, wherever and in whichever order, its gaps and its buffer account for
all of it. Only the transfer of a message of no bytes would keep an empty gap, and an assembler does
not open it: each of its transfers has bytes to wait for, and accounts for some of the parts that
named its hash. -/
theorem fillings_accounted :
    (∀ (n deadline : Nat) (fs : List Filling),
      ((Transfer.start n deadline).fillAll fs).Accounted n fs) ∧
    ∀ (maxBytes ttl : Nat) (cs : List Part),
      ∀ e ∈ (({ maxBytes, ttl } : Assembler).afterParts cs).transfers, 0 < e.2.total ∧
        ∃ fs, fs.Sublist (Assembler.fillings cs e.1) ∧ e.2.Accounted e.2.total fs := by
  refine ⟨fun n deadline fs => ?_, fun maxBytes ttl cs e he => ?_⟩
  · obtain rfl | hpos := Nat.eq_zero_or_pos n
    · rw [fillAll_start_zero]
      exact accounted_start_zero deadline fs
    · exact (tallies_fillAll hpos deadline fs).accounted hpos
  · obtain ⟨hpos, fs, hfs, htallies⟩ := Assembler.opened_afterParts maxBytes ttl cs e he
    exact ⟨hpos, fs, hfs, htallies.accounted hpos⟩

/-- Two parts that overlap, in an assembler that has nothing else. -/
def overlapping : List Part :=
  [⟨0, .replicate 32 1, 5, 1, [7, 7]⟩, ⟨1, .replicate 32 1, 5, 2, [8, 8]⟩]

theorem fillings_accounted_overlapping :
    let t : Transfer := ⟨5, [0, 7, 7, 8, 0], [⟨0, 1⟩, ⟨4, 5⟩], 10001⟩
    (Vector.replicate 32 1, t) ∈
        (({ maxBytes := 65536, ttl := 10000 } : Assembler).afterParts overlapping).transfers ∧
      ∃ fs, fs.Sublist [⟨1, [7, 7]⟩, ⟨2, [8, 8]⟩] ∧ t.Accounted 5 fs := by
  intro t
  have hopen : (Vector.replicate 32 1, t) ∈
      (({ maxBytes := 65536, ttl := 10000 } : Assembler).afterParts overlapping).transfers := by
    decide +kernel
  exact ⟨hopen, (fillings_accounted.2 65536 10000 overlapping _ hopen).2⟩

/-- A message of no bytes: no position is missing, but the gap between its ends stays. -/
theorem incomplete_without_bytes :
    let t := (Transfer.start 0 0).fillAll [⟨0, []⟩]
    Complete 0 ([⟨0, []⟩].map Filling.range) ∧ t.gaps = [⟨0, 0⟩] ∧ t.isComplete = false :=
  ⟨nofun, by decide, by decide⟩

/-- The second filling splits a gap, the third one hits both sides and finds two positions new. -/
example : ((Transfer.start 9 0).fillAll [⟨0, [1]⟩, ⟨4, [2, 2]⟩]).walk? ⟨3, [3, 3, 3, 3]⟩ =
    some (2, ⟨9, [1, 0, 0, 3, 2, 2, 3, 0, 0], [⟨1, 3⟩, ⟨7, 9⟩], 0⟩) := by decide

end Transfer

end Adnl
