import Adnl.Crypto.Curve25519
import Adnl.Proofs.Dialogue.Genuine
import Adnl.Proofs.Sending.Legible
import Mathlib.Data.ZMod.Basic
import Mathlib.Tactic

/-! # What a signature stands for

What is signed is a packet without its signature. The receiver has only what it decoded, and encodes
that again; both come to the same bytes. Those bytes determine everything else in a packet, so a
signature belongs to one packet only.
-/
namespace Adnl

/-- The multiples of the base point are read back as they are written, and the verifier comes to the
commitment of the signer. -/
structure Curve.Complete (C : Curve) : Prop where
  order_pos : 0 < C.order
  order_le : C.order ≤ Nat.pow 256 32
  decompress : ∀ n, C.decompress (C.compress (C.mul n C.base)) = some (C.mul n C.base)
  recommit : ∀ nonce challenge scalar,
    C.sub (C.mul ((nonce + challenge * scalar) % C.order) C.base)
      (C.mul challenge (C.mul scalar C.base)) = C.mul nonce C.base

theorem Curve.Complete.acceptsOwn {C : Curve} (h : C.Complete) : C.keyScheme.AcceptsOwn := by
  intro seed message
  have hresponse (n : Nat) :
      Bytes.toNatLE (Bytes.ofNatLE 32 (n % C.order)) = n % C.order := by
    rw [Bytes.toNatLE_ofNatLE]
    exact Nat.mod_eq_of_lt ((Nat.mod_lt n h.order_pos).trans_le h.order_le)
  change C.verify (C.publicKey seed) message (C.sign seed message) = .ok ()
  simp only [verify, publicKey, h.decompress, sign, List.take_left', List.drop_left',
    Vector.length_toList, List.length_append, Bytes.length_ofNatLE, hresponse,
    Nat.mod_lt _ h.order_pos, and_self, if_true, h.recommit]

instance : NeZero Curve25519.order := ⟨by decide⟩

def Curve25519.scalarBytes (x : ZMod order) : Bytes32 :=
  ⟨(Bytes.ofNatLE 32 x.val).toArray, by simp⟩

def Curve25519.scalarOf (b : Bytes32) : ZMod order := Bytes.toNatLE b.toList

theorem Curve25519.scalarOf_scalarBytes (x : ZMod order) : scalarOf (scalarBytes x) = x := by
  have hlt : x.val < Nat.pow 256 32 := x.val_lt.trans_le (by decide)
  change ((Bytes.toNatLE (Bytes.ofNatLE 32 x.val) : ℕ) : ZMod order) = x
  rw [Bytes.toNatLE_ofNatLE, Nat.mod_eq_of_lt hlt, ZMod.natCast_zmod_val]

/-- The scalars in place of a curve: a point is the scalar that makes it out of the base point. -/
def Curve.additive : Curve where
  Point := ZMod Curve25519.order
  base := 1
  order := Curve25519.order
  mul n P := n * P
  sub P Q := P - Q
  compress := Curve25519.scalarBytes
  decompress b := some (Curve25519.scalarOf b)
  toMontgomery := Curve25519.scalarBytes
  ladder n u := Curve25519.scalarBytes (n * Curve25519.scalarOf u)

theorem Curve.complete_additive : Curve.additive.Complete where
  order_pos := by decide
  order_le := by decide
  decompress n := congrArg some (Curve25519.scalarOf_scalarBytes _)
  recommit nonce challenge scalar := by
    change (((nonce + challenge * scalar) % Curve25519.order : ℕ) : ZMod Curve25519.order) * 1 -
      challenge * (scalar * 1) = nonce * 1
    rw [ZMod.natCast_mod]
    push_cast
    ring

namespace Packet

variable {K : KeyScheme} {p q : Packet}

theorem unsigned_sign (K : KeyScheme) (seed : Bytes32) (p : Packet) :
    (p.sign K seed).unsigned = p.unsigned := rfl

theorem WellFormed.unsigned (h : p.WellFormed) : p.unsigned.WellFormed :=
  { h with signature := nofun }

theorem decode_of_wellFormed (h : p.WellFormed) : decode p.encode = .ok p :=
  Reader.whole_of_reads (reads h)

/-- Well-formed packets that are signed alike have everything but the signature in common. -/
theorem encode_unsigned_inj (hp : p.WellFormed) (hq : q.WellFormed) :
    p.unsigned.encode = q.unsigned.encode ↔ q = { p with signature := q.signature } := by
  constructor
  · intro h
    have hdecoded : (.ok p.unsigned : Except Failure Packet) = .ok q.unsigned := by
      rw [← decode_of_wellFormed hp.unsigned, ← decode_of_wellFormed hq.unsigned, h]
    have hsame : p.unsigned = q.unsigned := Except.ok.inj hdecoded
    calc q = { q.unsigned with signature := q.signature } := rfl
      _ = { p.unsigned with signature := q.signature } := by rw [hsame]
      _ = { p with signature := q.signature } := rfl
  · intro h
    rw [h]
    rfl

/-- Signing puts a signature into a packet and changes nothing else, and a signature that was there
before makes no difference to what is signed. The bytes of a well-formed packet that has been signed
decode to it, signature and all, and that verifies. Two well-formed packets are signed alike exactly
when they have everything but the signature in common. -/
theorem signature_binds {C : Curve} (hC : C.keyScheme.AcceptsOwn) (seed : Bytes32) (p : Packet) :
    (∃ s, p.sign C.keyScheme seed = { p with signature := some s }) ∧
      (p.sign C.keyScheme seed).unsigned = p.unsigned ∧
      (p.WellFormed → ∃ q, decode (p.sign C.keyScheme seed).encode = .ok q ∧
        q = p.sign C.keyScheme seed ∧
        q.verify C.keyScheme (C.keyScheme.publicKey seed) = .ok ()) ∧
      ∀ q r : Packet, q.WellFormed → r.WellFormed →
        (q.unsigned.encode = r.unsigned.encode ↔ r = { q with signature := r.signature }) := by
  refine ⟨⟨_, rfl⟩, unsigned_sign C.keyScheme seed p, fun hp => ?_, fun q r => encode_unsigned_inj⟩
  have hsigned := wellFormed_sign C.signsBriefly_keyScheme seed hp
  exact ⟨_, decode_of_wellFormed hsigned, rfl, verify_sign hC seed p⟩

def hailing : Packet where
  rand1 := [1, 2, 3]
  message := some (.custom [4, 5])
  seqno := some 6
  signature := some []

theorem wellFormed_hailing (priority : Bool) : ({ hailing with priority } : Packet).WellFormed where
  oneField := .inr rfl
  senderAgrees := nofun
  message := by rintro _ ⟨⟩; decide
  messages := nofun
  address := nofun
  priorityAddress := nofun
  signature := by rintro _ ⟨⟩; decide
  rand1 := (by decide : 3 < Reader.lengthLimit)
  rand2 := (by decide : 0 < Reader.lengthLimit)

/-- Signed again it verifies, and to raise its priority takes another signature. -/
theorem signature_binds_hailing :
    (∃ q, decode (hailing.sign Curve.additive.keyScheme (.replicate 32 7)).encode = .ok q ∧
        q.verify Curve.additive.keyScheme
          (Curve.additive.keyScheme.publicKey (.replicate 32 7)) = .ok ()) ∧
      hailing.unsigned.encode ≠ ({ hailing with priority := true } : Packet).unsigned.encode := by
  have hbinds := signature_binds Curve.complete_additive.acceptsOwn (.replicate 32 7) hailing
  obtain ⟨-, -, hverifies, honly⟩ := hbinds
  constructor
  · obtain ⟨q, hdecode, -, hverify⟩ := hverifies (wellFormed_hailing false)
    exact ⟨q, hdecode, hverify⟩
  · intro h
    have hsame := (honly _ _ (wellFormed_hailing false) (wellFormed_hailing true)).1 h
    exact absurd (congrArg priority hsame) (by decide)

end Packet

end Adnl
