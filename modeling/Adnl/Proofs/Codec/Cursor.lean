import Adnl.Proofs.Codec.Lengths
import Adnl.Proofs.Codec.Range
import Adnl.Tl.Cursor

/-! # Values in sequence, read by position

What is left to a reader is always the rest of the data behind a position. The position moves on by
what a request consumes, also when the request fails after consuming, and it stays within the data.
So values written one after another are read back one after another, and whatever is asked for in
between, the bytes that remain can be counted.
-/
namespace Adnl.Tl

/-- The reader consumes `n` bytes if it has them, and then judges them by `parse`. -/
def FixedWidth {α : Type} (r : Reader α) (n : Nat) (parse : Bytes → Except Failure α) : Prop :=
  ∀ s, r s = if s.length < n then (.error (.refused (.tl (.short n s.length))), s)
    else (parse (s.take n), s.drop n)

section
variable {α β : Type} {r : Reader α} {n : Nat} {parse parse' : Bytes → Except Failure α}

theorem FixedWidth.congr (hr : FixedWidth r n parse) (h : ∀ b, parse b = parse' b) :
    FixedWidth r n parse' := by
  rwa [funext h] at hr

theorem FixedWidth.bind (hr : FixedWidth r n parse) {f : α → Reader β} {g : α → Except Failure β}
    (hf : ∀ a s, f a s = (g a, s)) : FixedWidth (r >>= f) n fun b => parse b >>= g := by
  intro s
  change Reader.andThen r f s = if s.length < n then _ else (parse (s.take n) >>= g, s.drop n)
  rw [Reader.andThen, hr s]
  split_ifs with hshort
  · rfl
  · cases parse (s.take n) with
    | error e => rfl
    | ok a => exact hf a (s.drop n)

theorem FixedWidth.map {value : Bytes → α} (hr : FixedWidth r n fun b => .ok (value b))
    (f : α → β) : FixedWidth (r >>= fun a => pure (f a)) n fun b => .ok (f (value b)) :=
  hr.bind (g := fun a => .ok (f a)) fun _ _ => rfl

end

theorem fixedWidth_raw (n : Nat) : FixedWidth (Reader.raw n) n .ok := fun _ => rfl

theorem fixedWidth_array (n : Nat) (make : Vector UInt8 n → Value) :
    FixedWidth (Reader.vector n >>= (fun v => pure (make v)) >>= fun v => pure (Answer.value v)) n
      (arrayOf n make) := by
  have hvector : FixedWidth (Reader.vector n) n fun b =>
      (Bytes.toVector? n b).elim (.error .outOfRange) .ok := by
    intro s
    have hlength : (s.take n).length = min n s.length := List.length_take
    rw [Reader.vector]
    split_ifs with hshort
    · have hnone : Bytes.toVector? n (s.take n) = none := dif_neg (by omega)
      rw [hnone]
      rfl
    · obtain ⟨v, hv⟩ : ∃ v, Bytes.toVector? n (s.take n) = some v := ⟨_, dif_pos (by omega)⟩
      simp only [hv, Option.elim_some]
  have hmake := hvector.bind (g := fun v => .ok (make v)) fun _ _ => rfl
  refine (hmake.bind (g := fun v => .ok (Answer.value v)) fun _ _ => rfl).congr fun b => ?_
  rw [arrayOf]
  cases Bytes.toVector? n b <;> rfl

theorem fixedWidth_u32 : FixedWidth Reader.u32 4 fun b => .ok (wordOf b) :=
  (fixedWidth_raw 4).map wordOf

theorem fixedWidth_judged {α : Type} {f : UInt32 → Reader α} {g : UInt32 → Except Failure α}
    (hf : ∀ w s, f w s = (g w, s)) (answer : α → Answer) :
    FixedWidth (Reader.u32 >>= f >>= fun a => pure (answer a)) 4
      fun b => g (wordOf b) >>= fun a => .ok (answer a) :=
  (fixedWidth_u32.bind hf).bind fun _ _ => rfl

theorem fixedWidth_tag (expected : UInt32) : FixedWidth (Request.read (.tag expected)) 4 fun b =>
    if wordOf b = expected then .ok .found
    else .error (.refused (.unexpectedConstructor (wordOf b))) := by
  let judge (w : UInt32) : Except Failure Unit :=
    if w = expected then .ok () else .error (.refused (.unexpectedConstructor w))
  refine (fixedWidth_judged (g := judge) (fun w s => ?_) fun _ => .found).congr fun b => ?_
  all_goals
    simp only [judge]
    split_ifs <;> rfl

theorem fixedWidth_vectorLength : FixedWidth (Request.read .vectorLength) 4 fun b =>
    if (wordOf b).toNat ≤ Reader.maxVectorLength then .ok (.vectorLength (wordOf b).toNat)
    else .error (.refused (.tl (.longVector (wordOf b).toNat))) := by
  let judge (w : UInt32) : Except Failure Nat :=
    if w.toNat ≤ Reader.maxVectorLength then .ok w.toNat
    else .error (.refused (.tl (.longVector w.toNat)))
  refine (fixedWidth_judged (g := judge) (fun w s => ?_) .vectorLength).congr fun b => ?_
  all_goals
    simp only [judge]
    split_ifs <;> rfl

namespace Cursor

/-- The second cursor is further on in the same data. -/
structure Onward (c next : Cursor) : Prop where
  data_eq : next.data = c.data
  offset_le : c.offset ≤ next.offset
  within : next.offset ≤ c.data.length

/-- The request is answered as the reader answers it, and the reader leaves what is left at the
position reached. -/
def Agrees (c : Cursor) (r : Reader Answer) (o : Outcome) : Prop :=
  ∃ answer next, o = some (answer, next) ∧ c.Onward next ∧ r c.rest = (answer, next.rest)

variable {c : Cursor} {r : Reader Answer}

theorem remaining?_eq (h : c.offset ≤ c.data.length) : c.remaining? = some c.rest.length := by
  rw [remaining?, if_pos h, rest, List.length_drop]

theorem rest_advance (n : Nat) : (c.advance n).rest = c.rest.drop n :=
  List.drop_drop.symm

theorem slice_rest (start n : Nat) :
    Bytes.slice c.data (c.offset + start) n = Bytes.slice c.rest start n := by
  rw [Bytes.slice, Bytes.slice, rest, List.drop_drop]

theorem onward_advance (h : c.offset ≤ c.data.length) {n : Nat} (hn : n ≤ c.rest.length) :
    c.Onward (c.advance n) where
  data_eq := rfl
  offset_le := Nat.le_add_right c.offset n
  within := by
    rw [rest, List.length_drop] at hn
    change c.offset + n ≤ c.data.length
    omega

theorem agrees_refuse (h : c.offset ≤ c.data.length) {fault : TlFault}
    (hr : r c.rest = (.error (.refused (.tl fault)), c.rest)) : c.Agrees r (c.refuse fault) :=
  ⟨_, c, rfl, onward_advance h (Nat.zero_le _), hr⟩

theorem agrees_take (h : c.offset ≤ c.data.length) {n : Nat} {parse : Bytes → Except Failure Answer}
    (hr : FixedWidth r n parse) : c.Agrees r (c.take n parse) := by
  have hread := hr c.rest
  have htake : c.take n parse = if c.rest.length < n then c.refuse (.short n c.rest.length)
      else some (parse (c.rest.take n), c.advance n) := by
    rw [take, remaining?_eq h]
    rfl
  rw [htake]
  split_ifs at hread ⊢ with hshort
  · exact agrees_refuse h hread
  · rw [← rest_advance] at hread
    exact ⟨_, _, rfl, onward_advance h (Nat.le_of_not_lt hshort), hread⟩

def holding (b : Bytes) : Reader Answer := pure (.value (.bytes b))

theorem read_bytes : Request.read (.value .bytes) = Reader.byteString >>= holding :=
  Reader.bind_assoc Reader.byteString (fun b => pure (Value.bytes b)) fun v => pure (Answer.value v)

theorem bind_congr {α β : Type} {r r' : Reader α} {f : α → Reader β} {s : Bytes}
    (h : r s = r' s) : (r >>= f) s = (r' >>= f) s := by
  change Reader.andThen r f s = Reader.andThen r' f s
  rw [Reader.andThen, Reader.andThen, h]

theorem agrees_content (h : c.offset ≤ c.data.length) {header length : Nat}
    (hr : r c.rest = (Reader.content header length >>= holding) c.rest) :
    c.Agrees r (c.content header length) := by
  have hcontent : c.content header length =
      if c.rest.length < bytesLength length then
        c.refuse (.short (bytesLength length) c.rest.length)
      else if c.rest.length < header + length then some (.error .outOfRange, c)
      else some (.ok (.value (.bytes (Bytes.slice c.rest header length))),
        c.advance (bytesLength length)) := by
    have hrange : c.data.length < c.offset + header + length ↔
        c.rest.length < header + length := by
      rw [rest, List.length_drop]
      omega
    rw [content, remaining?_eq h, ← slice_rest]
    simp only [← hrange]
    rfl
  have hread : r c.rest =
      if c.rest.length < bytesLength length then
        (.error (.refused (.tl (.short (bytesLength length) c.rest.length))), c.rest)
      else if c.rest.length < header + length then (.error .outOfRange, c.rest)
      else (.ok (.value (.bytes (Bytes.slice c.rest header length))),
        c.rest.drop (bytesLength length)) := by
    rw [hr]
    change Reader.andThen (Reader.content header length) holding c.rest = _
    rw [Reader.andThen, Reader.content]
    split_ifs <;> rfl
  rw [hcontent]
  split_ifs at hread ⊢ with hshort hout
  · exact agrees_refuse h hread
  · exact ⟨_, c, rfl, onward_advance h (Nat.zero_le _), hread⟩
  · rw [← rest_advance] at hread
    exact ⟨_, _, rfl, onward_advance h (Nat.le_of_not_lt hshort), hread⟩

theorem toNatLE_long (first : UInt8) (r : Bytes) :
    Bytes.toNatLE (first :: r) / 256 = Bytes.toNatLE r := by
  have := first.toNat_lt
  rw [Bytes.toNatLE]
  omega

theorem agrees_byteString (h : c.offset ≤ c.data.length) :
    c.Agrees (Request.read (.value .bytes)) c.byteString := by
  have hfirst : c.data[c.offset]? = c.rest[0]? := by rw [rest, List.getElem?_drop, Nat.add_zero]
  have hword : Bytes.slice c.data c.offset 4 = c.rest.take 4 := rfl
  have hcontent {header length : Nat}
      (hs : Reader.byteString c.rest = Reader.content header length c.rest) :
      c.Agrees (Request.read (.value .bytes)) (c.content header length) :=
    agrees_content h (read_bytes ▸ bind_congr hs)
  have hrefuse {fault : TlFault} (hs : Reader.byteString c.rest = Reader.fail (.tl fault) c.rest) :
      c.Agrees (Request.read (.value .bytes)) (c.refuse fault) :=
    agrees_refuse h (read_bytes ▸ bind_congr hs)
  rw [byteString, hfirst]
  cases hrest : c.rest with
  | nil => exact hrefuse (hrest ▸ rfl)
  | cons first tail =>
    simp only [List.getElem?_cons_zero, hword, hrest]
    by_cases hshort : first < 254
    · rw [if_pos hshort]
      refine hcontent ?_
      simp only [hrest, Reader.byteString, hshort, if_true]
    · by_cases hlong : first = 254
      · subst hlong
        rcases tail with _ | ⟨x, _ | ⟨y, _ | ⟨z, more⟩⟩⟩
        · exact hrefuse (hrest ▸ rfl)
        · exact hrefuse (hrest ▸ rfl)
        · exact hrefuse (hrest ▸ rfl)
        · refine hcontent ?_
          simp only [hrest, List.take_succ_cons, List.take_zero, toNatLE_long]
          rfl
      · rw [if_neg hshort, if_neg hlong]
        refine hrefuse ?_
        simp only [hrest, Reader.byteString, hshort, hlong, if_false]

theorem agrees_finish (h : c.offset ≤ c.data.length) :
    c.Agrees (Request.read .finish) (c.ask .finish) := by
  have hask : c.ask .finish = if c.rest.length = 0 then some (.ok .found, c)
      else c.refuse (.trailing c.rest.length) := by
    rw [ask, remaining?_eq h]
    rfl
  have hread : Request.read .finish c.rest = if c.rest.length = 0 then (.ok .found, c.rest)
      else (.error (.refused (.tl (.trailing c.rest.length))), c.rest) := by
    change Reader.andThen Reader.finish (fun _ => pure Answer.found) c.rest = _
    rw [Reader.andThen, Reader.finish]
    simp only [List.length_eq_zero_iff]
    split_ifs <;> rfl
  rw [hask]
  split_ifs at hread ⊢ with hend
  · exact ⟨_, c, rfl, onward_advance h (Nat.zero_le _), hread⟩
  · exact agrees_refuse h hread

/-- Whatever is asked for within the data, the cursor ends within the data, as the reader does. -/
theorem ask_agrees (h : c.offset ≤ c.data.length) (q : Request) : c.Agrees q.read (c.ask q) := by
  cases q with
  | raw count => exact agrees_take h ((fixedWidth_raw count).map Answer.raw)
  | value shape =>
    cases shape with
    | u32 => exact agrees_take h ((fixedWidth_u32.map Value.u32).map Answer.value)
    | i32 =>
      have hword : FixedWidth Reader.i32 4 fun b => .ok (wordOf b).toInt32 :=
        fixedWidth_u32.map UInt32.toInt32
      exact agrees_take h ((hword.map Value.i32).map Answer.value)
    | u64 =>
      have hword : FixedWidth Reader.u64 8 fun b => .ok (UInt64.ofNat (Bytes.toNatLE b)) :=
        (fixedWidth_raw 8).map fun b => UInt64.ofNat (Bytes.toNatLE b)
      exact agrees_take h ((hword.map Value.u64).map Answer.value)
    | int128 => exact agrees_take h (fixedWidth_array 16 .int128)
    | int256 => exact agrees_take h (fixedWidth_array 32 .int256)
    | bytes => exact agrees_byteString h
  | tag expected => exact agrees_take h (fixedWidth_tag expected)
  | vectorLength => exact agrees_take h fixedWidth_vectorLength
  | finish => exact agrees_finish h

/-- A run of requests is answered, and the position never goes back nor beyond the end. -/
theorem visits_agree (h : c.offset ≤ c.data.length) (qs : List Request) :
    ∃ visits, c.visits qs = some visits ∧
      visits.map (fun v => (v.1, v.2.rest)) = Request.answers qs c.rest ∧
      (∀ v ∈ visits, v.2.data = c.data ∧ v.2.offset ≤ c.data.length) ∧
      (c.offset :: visits.map fun v => v.2.offset).IsChain (· ≤ ·) := by
  induction qs generalizing c with
  | nil => exact ⟨[], rfl, rfl, nofun, List.isChain_singleton _⟩
  | cons q qs ih =>
    obtain ⟨answer, next, hask, honward, hread⟩ := ask_agrees h q
    have hnext : next.offset ≤ next.data.length := honward.data_eq ▸ honward.within
    obtain ⟨visits, hvisits, hanswers, hwithin, hchain⟩ := ih hnext
    refine ⟨(answer, next) :: visits, ?_, ?_, ?_, ?_⟩
    · simp only [Cursor.visits, hask, hvisits, Option.bind_eq_bind, Option.bind_some]
      rfl
    · simp only [Request.answers, hread, List.map_cons, hanswers]
    · rw [honward.data_eq] at hwithin
      exact List.forall_mem_cons.2 ⟨⟨honward.data_eq, honward.within⟩, hwithin⟩
    · exact List.isChain_cons_cons.2 ⟨honward.offset_le, hchain⟩

end Cursor

def Value.Fits : Value → Prop
  | .bytes b => b.length < Reader.lengthLimit
  | _ => True

def Shape.readAll : List Shape → Reader (List Value)
  | [] => pure []
  | shape :: shapes => do
    let v ← shape.read
    return v :: (← readAll shapes)

theorem Value.reads {v : Value} (h : v.Fits) : v.shape.read.Reads v.write v := by
  cases v with
  | u32 w => exact (Reader.reads_u32 w).map Value.u32
  | i32 w => exact (Reader.reads_i32 w).map Value.i32
  | u64 w => exact (Reader.reads_u64 w).map Value.u64
  | int128 b => exact (Reader.reads_vector b).map Value.int128
  | int256 b => exact (Reader.reads_vector b).map Value.int256
  | bytes b => exact (Reader.reads_byteString h).map Value.bytes

theorem reads_writeAll {vs : List Value} (h : ∀ v ∈ vs, v.Fits) :
    (Shape.readAll (vs.map Value.shape)).Reads (writeAll vs) vs := by
  induction vs with
  | nil => exact Reader.reads_pure []
  | cons v vs ih =>
    obtain ⟨hv, hvs⟩ := List.forall_mem_cons.1 h
    exact (Value.reads hv).bind ((ih hvs).map (v :: ·))

/-- Values whose lengths fit are read back in order by their shapes, and what follows them is left.
Together they take what each of them takes, a multiple of four. And in any data, whatever is asked
for and however it is answered, a reader's position goes neither back nor beyond the end, so the
bytes that remain can be counted. -/
theorem values_compose :
    (∀ (vs : List Value) (rest : Bytes), (∀ v ∈ vs, v.Fits) →
      Shape.readAll (vs.map Value.shape) (writeAll vs ++ rest) = (.ok vs, rest) ∧
        (writeAll vs).length = Bytes.total (vs.map Value.length) ∧ 4 ∣ (writeAll vs).length) ∧
    ∀ (data : Bytes) (qs : List Request), ∃ visits, (Cursor.mk data 0).visits qs = some visits ∧
      visits.map (fun v => (v.1, v.2.rest)) = Request.answers qs data ∧
      (∀ v ∈ visits, v.2.data = data ∧ v.2.offset ≤ data.length) ∧
      (0 :: visits.map fun v => v.2.offset).IsChain (· ≤ ·) := by
  refine ⟨fun vs rest hvs => ⟨?_, length_writeAll vs, four_dvd_length_writeAll vs⟩,
    fun data qs => ?_⟩
  · exact (reads_writeAll hvs).all rest
  · exact (Cursor.mk data 0).visits_agree (Nat.zero_le _) qs

/-- An id and a count are consumed although they are refused, what is too short is not. -/
example : ((Cursor.mk [1, 0, 0, 0, 255, 255, 0, 0, 7] 0).visits
    [.tag 2, .vectorLength, .raw 2, .value .bytes]).map (·.map fun v => v.2.offset) =
      some [4, 8, 8, 8] := by decide

/-- A byte string in each form of the length, with a word in between. -/
def bothForms : List Value :=
  [.bytes (List.replicate 253 1), .i32 (-2), .bytes (List.replicate 254 3)]

theorem values_compose_bothForms :
    (∀ v ∈ bothForms, v.Fits) ∧
      Shape.readAll [.bytes, .i32, .bytes] (writeAll bothForms ++ [254]) = (.ok bothForms, [254]) ∧
      (writeAll bothForms).length = 256 + 4 + 260 := by
  have hfits : ∀ v ∈ bothForms, v.Fits := by
    simp only [bothForms, List.forall_mem_cons, Value.Fits, List.length_replicate]
    exact ⟨by decide, trivial, by decide, nofun⟩
  obtain ⟨hread, hlength, -⟩ := values_compose.1 bothForms [254] hfits
  exact ⟨hfits, hread, hlength.trans (by decide +kernel)⟩

end Adnl.Tl
