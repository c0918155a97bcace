import Adnl.Message.Size
import Adnl.Reassembly.Assembler

/-!
What a part does to the number of open transfers. A part that completes a message either closes a
transfer that was open before, or holds the whole message itself.
-/
namespace Adnl

namespace Transfer

theorem length_splice {buffer data : Bytes} {start : Nat}
    (h : start + data.length ≤ buffer.length) :
    (splice buffer start data).length = buffer.length := by
  simp only [splice, List.length_append, List.length_take, List.length_drop]
  omega

theorem length_of_isComplete_start {total deadline start : Nat} {data : Bytes}
    (hpos : 1 ≤ total) (h : start + data.length ≤ total)
    (hc : ((Transfer.start total deadline).fill start data).2.isComplete = true) :
    data.length = total ∧
      ((Transfer.start total deadline).fill start data).2.buffer.length = total := by
  have hg : (Gap.minus ⟨0, total⟩ ⟨start, start + data.length⟩) = [] := by
    simpa [fill, isComplete, Transfer.start] using hc
  have hm : Gap.meet ⟨0, total⟩ ⟨start, start + data.length⟩ = ⟨start, start + data.length⟩ := by
    simp [Gap.meet, Nat.min_eq_right h]
  have hne : (⟨start, start + data.length⟩ : Gap).isEmpty = false := by
    cases he : (⟨start, start + data.length⟩ : Gap).isEmpty
    · rfl
    · simp [Gap.minus, hm, he] at hg
  simp only [Gap.minus, hm, hne, Bool.false_eq_true, if_false] at hg
  simp [Gap.isEmpty] at hg
  obtain ⟨hs, ht⟩ := hg
  subst hs
  have hl : data.length = total := by omega
  refine ⟨hl, ?_⟩
  simp only [fill, Transfer.start, List.map_cons, List.map_nil, hm, List.filter_cons, hne]
  simp only [Bool.not_false, if_true, List.filter_nil, List.foldl_cons, List.foldl_nil]
  rw [length_splice]
  · simp
  · simp only [Bytes.slice, Gap.size, List.length_take, List.length_drop, List.length_replicate]
    omega

end Transfer

namespace Assembler

variable {a : Assembler} {now total start : Nat} {hash : Bytes32} {data : Bytes} {t : Transfer}

theorem mem_of_get? (h : a.get? hash = some t) : (hash, t) ∈ a.transfers := by
  obtain ⟨l, l', hl, -⟩ := List.lookup_eq_some_iff.1 h
  rw [hl]
  exact List.mem_append_right _ List.mem_cons_self

theorem length_erase_le (a : Assembler) (hash : Bytes32) :
    (a.erase hash).transfers.length ≤ a.transfers.length := List.length_filter_le _ _

theorem length_erase_lt (h : a.get? hash = some t) :
    (a.erase hash).transfers.length < a.transfers.length :=
  List.length_filter_lt_length_iff_exists.2 ⟨_, mem_of_get? h, by simp⟩

theorem length_sweep_le (a : Assembler) (now : Nat) :
    (a.sweep now).transfers.length ≤ a.transfers.length := by
  unfold sweep
  split
  · exact List.length_filter_le _ _
  · exact Nat.le_refl _

theorem length_put_le (a : Assembler) (hash : Bytes32) (t : Transfer) :
    (a.put hash t).transfers.length ≤ a.transfers.length + 1 :=
  Nat.succ_le_succ (length_erase_le a hash)

theorem length_of_finish {buffer : Bytes} {m : Message} (h : finish hash buffer = .message m) :
    m.encodedLength = buffer.length := by
  unfold finish at h
  split at h
  · split at h
    · next hdecode =>
      cases h
      exact (Message.length_of_decode hdecode).symm
    · cases h
    · cases h
  · cases h

/-- The transfer that a part goes to: the one that is open, or one that it opens. -/
inductive Meets (a : Assembler) (now : Nat) (hash : Bytes32) (start : Nat) (data : Bytes) :
    Transfer → Prop
  | stored {t : Transfer} (h : (a.sweep now).get? hash = some t)
    (hmax : start + data.length ≤ a.maxBytes) : Meets a now hash start data t
  | opened {total : Nat} (deadline : Nat) (hpos : 1 ≤ total) (hmax : total ≤ a.maxBytes)
    (hfits : start + data.length ≤ total) : Meets a now hash start data (.start total deadline)

/-- Everything that may become of a part. -/
inductive Accepts (a : Assembler) (now : Nat) (hash : Bytes32) (start : Nat) (data : Bytes) :
    PartOutcome × Assembler → Prop
  | outside : Accepts a now hash start data (.nothing, a)
  | clashes : Accepts a now hash start data (.nothing, (a.sweep now).erase hash)
  | repeats {t : Transfer} (h : a.Meets now hash start data t) :
    Accepts a now hash start data (.nothing, (a.sweep now).put hash t)
  | continues {t : Transfer} (h : a.Meets now hash start data t) (deadline : Nat) :
    Accepts a now hash start data
      (.nothing, (a.sweep now).put hash { (t.fill start data).2 with deadline })
  | completes {t : Transfer} (h : a.Meets now hash start data t)
    (hcomplete : (t.fill start data).2.isComplete = true) :
    Accepts a now hash start data
      (finish hash (t.fill start data).2.buffer, (a.sweep now).erase hash)

theorem meets_of_bounds? {totalSize offset : Int32}
    (h : a.bounds? totalSize offset data = some (total, start)) (deadline : Nat) :
    a.Meets now hash offset.toInt.toNat data
      (((a.sweep now).get? hash).getD (.start total deadline)) ∧ start = offset.toInt.toNat := by
  unfold bounds? at h
  dsimp only at h
  split at h
  · next hb =>
    obtain ⟨rfl, rfl⟩ := Prod.mk.inj (Option.some.inj h)
    obtain ⟨hpos, hmax, -, hfits⟩ := hb
    refine ⟨?_, rfl⟩
    cases hget : (a.sweep now).get? hash with
    | some t => exact .stored hget (Nat.le_trans hfits hmax)
    | none => exact .opened deadline (by omega) hmax hfits
  · cases h

theorem accepts (a : Assembler) (now : Nat) (hash : Bytes32) (totalSize offset : Int32)
    (data : Bytes) :
    a.Accepts now hash offset.toInt.toNat data (a.accept now hash totalSize offset data) := by
  unfold accept
  split
  · exact .outside
  · next total start hb =>
    obtain ⟨hmeets, rfl⟩ := meets_of_bounds? hb (now + (a.sweep now).ttl)
    dsimp only
    split
    · exact .clashes
    · split
      · exact .repeats hmeets
      · split
        · next hcomplete => exact .completes hmeets hcomplete
        · exact .continues hmeets _

theorem length_accept_le (a : Assembler) (now : Nat) (hash : Bytes32) (totalSize offset : Int32)
    (data : Bytes) :
    (a.accept now hash totalSize offset data).2.transfers.length ≤ a.transfers.length + 1 := by
  have hswept := length_sweep_le a now
  have hput (t : Transfer) : ((a.sweep now).put hash t).transfers.length ≤
      a.transfers.length + 1 :=
    Nat.le_trans (length_put_le _ hash t) (Nat.succ_le_succ hswept)
  have hends : ((a.sweep now).erase hash).transfers.length ≤ a.transfers.length + 1 :=
    Nat.le_succ_of_le (Nat.le_trans (length_erase_le _ hash) hswept)
  have haccepts := a.accepts now hash totalSize offset data
  generalize a.accept now hash totalSize offset data = r at haccepts ⊢
  cases haccepts with
  | outside => exact Nat.le_succ _
  | clashes => exact hends
  | repeats => exact hput _
  | continues => exact hput _
  | completes => exact hends

/-- A completed message has closed a transfer, or is no longer than the part that held it. -/
theorem accept_message {a : Assembler} {now : Nat} {hash : Bytes32} {totalSize offset : Int32}
    {data : Bytes} {m : Message}
    (h : (a.accept now hash totalSize offset data).1 = .message m) :
    (a.accept now hash totalSize offset data).2.transfers.length < a.transfers.length ∨
      ((a.accept now hash totalSize offset data).2.transfers.length ≤ a.transfers.length ∧
        m.encodedLength ≤ data.length) := by
  have hswept := length_sweep_le a now
  have haccepts := a.accepts now hash totalSize offset data
  generalize a.accept now hash totalSize offset data = r at haccepts h ⊢
  cases haccepts with
  | outside => cases h
  | clashes => cases h
  | repeats => cases h
  | continues => cases h
  | completes hmeets hcomplete =>
    dsimp only at h
    have hlength := length_of_finish h
    cases hmeets with
    | stored hget => exact .inl (Nat.lt_of_lt_of_le (length_erase_lt hget) hswept)
    | opened deadline hpos _ hfits =>
      obtain ⟨hwhole, hbuffer⟩ := Transfer.length_of_isComplete_start hpos hfits hcomplete
      refine .inr ⟨Nat.le_trans (length_erase_le _ hash) hswept, ?_⟩
      exact Nat.le_of_eq (hlength.trans (hbuffer.trans hwhole.symm))

end Assembler

end Adnl
