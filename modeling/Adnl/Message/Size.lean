import Adnl.Message
import Adnl.Tl.Consumption

/-! A message takes as many bytes to read as it takes to write. -/
namespace Adnl.Message

open Reader in
theorem length_of_readFields {tag : UInt32} {s s' : Bytes} {m : Message}
    (h : readFields tag s = (.ok m, s')) : s.length = s'.length + m.fieldsLength := by
  unfold readFields at h
  repeat' split at h
  rotate_right
  · simp [fail] at h
  all_goals
    simp only [bind_eq_ok, pure_eq_ok] at h
  · obtain ⟨a, t, ha, b, t', hb, rfl, rfl⟩ := h
    have := length_of_vector ha; have := length_of_i32 hb
    simp only [fieldsLength]; omega
  · obtain ⟨a, t, ha, b, t', hb, c, t'', hc, rfl, rfl⟩ := h
    have := length_of_vector ha; have := length_of_vector hb; have := length_of_i32 hc
    simp only [fieldsLength]; omega
  · obtain ⟨a, t, ha, rfl, rfl⟩ := h
    exact length_of_byteString ha
  · obtain ⟨rfl, rfl⟩ := h
    simp [fieldsLength]
  · obtain ⟨a, t, ha, rfl, rfl⟩ := h
    exact length_of_i32 ha
  · obtain ⟨a, t, ha, b, t', hb, rfl, rfl⟩ := h
    have := length_of_vector ha; have := length_of_byteString hb
    simp only [fieldsLength]; omega
  · obtain ⟨a, t, ha, b, t', hb, rfl, rfl⟩ := h
    have := length_of_vector ha; have := length_of_byteString hb
    simp only [fieldsLength]; omega
  · obtain ⟨a, t, ha, b, t', hb, c, t'', hc, d, t3, hd, rfl, rfl⟩ := h
    have := length_of_vector ha; have := length_of_i32 hb
    have := length_of_i32 hc; have := length_of_byteString hd
    simp only [fieldsLength]; omega

theorem length_of_decode {data : Bytes} {m : Message} (h : decode data = .ok m) :
    data.length = m.encodedLength := by
  obtain ⟨tag, t, ht, hf⟩ := Reader.bind_eq_ok.1 (Reader.of_whole h)
  have := Reader.length_of_u32 ht
  have := length_of_readFields hf
  simp only [encodedLength, List.length_nil] at *
  omega

end Adnl.Message
