import Adnl.Address.List
import Adnl.Message
import Adnl.Tl.Value
import Mathlib.Tactic

/-! # Sizes that are known beforehand

How many bytes a value takes depends on its shape alone, and on the length of the content for a byte
string, whichever form that length is written in. It is a multiple of four. So the sizes of
messages, addresses and lists are told from their fields before anything is written.
-/
namespace Adnl

theorem Bytes.dvd_total {d : Nat} {l : List Nat} (h : ∀ n ∈ l, d ∣ n) : d ∣ total l := by
  induction l with
  | nil => exact Nat.dvd_zero d
  | cons n l ih =>
    have hl : d ∣ total l := ih fun m hm => h m (List.mem_cons_of_mem n hm)
    exact Nat.dvd_add (h n List.mem_cons_self) hl

namespace Tl

theorem four_dvd_bytesLength (length : Nat) : 4 ∣ bytesLength length :=
  Nat.dvd_mul_left 4 _

namespace Value

def length : Value → Nat
  | .u32 _ => 4
  | .i32 _ => 4
  | .u64 _ => 8
  | .int128 _ => 16
  | .int256 _ => 32
  | .bytes b => bytesLength b.length

theorem length_write (v : Value) : v.write.length = v.length := by
  cases v <;> simp [write, length]

theorem four_dvd_length (v : Value) : 4 ∣ v.length := by
  cases v with
  | u32 | i32 | u64 | int128 | int256 => simp only [length]; omega
  | bytes b => exact four_dvd_bytesLength b.length

end Value

def writeAll (vs : List Value) : Bytes := vs.flatMap Value.write

theorem length_writeAll (vs : List Value) :
    (writeAll vs).length = Bytes.total (vs.map Value.length) := by
  rw [writeAll, Bytes.length_flatMap]
  simp only [Value.length_write]

theorem four_dvd_length_writeAll (vs : List Value) : 4 ∣ (writeAll vs).length := by
  rw [length_writeAll]
  refine Bytes.dvd_total fun n hn => ?_
  obtain ⟨v, -, rfl⟩ := List.mem_map.1 hn
  exact v.four_dvd_length

end Tl

/-- A message of any kind, an address and a list of any number of addresses take as many bytes as
told beforehand, even if a length or a count is too large for its field. -/
theorem encodedLength_exact :
    (∀ m : Message, m.encode.length = m.encodedLength) ∧
      (∀ a : Address, a.encode.length = a.encodedLength) ∧
      ∀ l : AddressList, l.encode.length = l.encodedLength :=
  ⟨Message.length_encode, Address.length_encode, AddressList.length_encode⟩

end Adnl
