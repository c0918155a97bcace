import Adnl.Proofs.Pair.Run
import Mathlib.Tactic

/-! # Two pairs and the network between them

Each end remembers the packets that it has built and those that have arrived at it. The network
brings packets of the other end in any order, late, more than once or not at all; it cannot make
one. Messages that arrive lead to events of the handshake, of which any may happen at any time.
-/
namespace Adnl

inductive Side
  | left
  | right
deriving DecidableEq, Repr

def Side.other : Side → Side
  | .left => .right
  | .right => .left

@[simp] theorem Side.other_other (s : Side) : s.other.other = s := by cases s <;> rfl

theorem Side.other_ne (s : Side) : s.other ≠ s := by cases s <;> decide

theorem Side.eq_or_eq_other (s t : Side) : t = s ∨ t = s.other := by
  cases s <;> cases t <;> decide

structure SentPacket where
  packet : Packet
  /-- It went through the channel, which vouches for it. -/
  viaChannel : Bool
deriving DecidableEq, Repr

namespace SentPacket

def number (g : SentPacket) : UInt64 := g.packet.seqno.getD 0

/-- The number whose receipt the packet confirms. -/
def confirms (g : SentPacket) : UInt64 := g.packet.confirmSeqno.getD 0

/-- When its receiver started, as far as the sender knew. -/
def receiverDate (g : SentPacket) : Int32 := (g.packet.reinitDates.map (·.receiver)).getD 0

end SentPacket

structure Arrival where
  index : Nat
  sent : SentPacket
  outcome : Except PacketDrop Unit

namespace Arrival

def number (a : Arrival) : UInt64 := a.sent.number

/-- The number was marked as seen: the packet was accepted, or it confirmed too much. -/
def marked (a : Arrival) : Bool :=
  match a.outcome with
  | .ok () => true
  | .error (.unsentConfirm ..) => true
  | .error _ => false

/-- A window with this number in it still takes in the other one: it is another one, and its half is
at most one ahead. -/
def LeavesRoom (a : Arrival) (n : UInt64) : Prop :=
  a.number ≠ n ∧ a.number.toNat / 256 * 256 ≤ n.toNat / 256 * 256 + 256

theorem marked_eq_false {i : Nat} {g : SentPacket} {r : PacketDrop}
    (h : ∀ c s, r ≠ .unsentConfirm c s) : (⟨i, g, .error r⟩ : Arrival).marked = false := by
  cases r with
  | unsentConfirm c s => exact absurd rfl (h c s)
  | _ => rfl

end Arrival

structure End where
  pair : Pair
  /-- The packets built here, the first one first. -/
  built : List SentPacket
  /-- What has arrived since the end started, the latest first. -/
  arrivals : List Arrival

namespace End

/-- The end after something happened inside it. A packet that it builds goes out. -/
def act (K : KeyScheme) (e : End) (event : Pair.Event) : End :=
  { e with
    pair := e.pair.after K event
    built := match event with
      | .build messages => e.built ++ [⟨(e.pair.build K messages).1, e.pair.channelReady⟩]
      | _ => e.built }

def receive (K : KeyScheme) (e : End) (index : Nat) (g : SentPacket) (source : Address)
    (now : Int32) : End :=
  let (outcome, pair) := e.pair.checkPacket K g.packet source g.viaChannel now
  { e with pair, arrivals := ⟨index, g, outcome⟩ :: e.arrivals }

/-- The numbers that were marked, of the packets from a place on. -/
def marks (e : End) (first : Nat) : List UInt64 :=
  (e.arrivals.filter fun a => a.marked && decide (first ≤ a.index)).map Arrival.number

end End

abbrev Dialogue := Side → End

inductive Move
  | act (side : Side) (event : { e : Pair.Event // e.isInner })
  /-- A packet of the other end arrives, given by its place. -/
  | arrive (side : Side) (index : Nat) (source : Address) (now : Int32)

/-- What an end starts with: an identity whose list is not dated after it, and a list of the peer's
addresses. -/
structure Party where
  own : LocalIdentity
  known : AddressList
  config : Config
  start : Int32
  supply : Supply
  date_nonneg : 0 ≤ own.reinitDate
  list_le : own.addresses.reinitDate ≤ own.reinitDate

def Party.pair (p : Party) (peer : PublicKey) : Pair :=
  .new p.own ⟨peer, p.known⟩ p.config p.start p.supply

def Party.plain (seed : Bytes32) (date : Int32) (h : 0 ≤ date) : Party where
  own := ⟨seed, date, { reinitDate := date }⟩
  known := {}
  config := {}
  start := date
  supply := .zeros
  date_nonneg := h
  list_le := Int32.le_refl date

namespace Dialogue

section
variable (K : KeyScheme)

def start (P : Side → Party) : Dialogue := fun s => ⟨(P s).pair ((P s.other).own.key K), [], []⟩

def step (d : Dialogue) : Move → Dialogue
  | .act s event => Function.update d s ((d s).act K event)
  | .arrive s index source now =>
    match (d s.other).built[index]? with
    | some g => Function.update d s ((d s).receive K index g source now)
    | none => d

def run (d : Dialogue) (ms : List Move) : Dialogue := ms.foldl (step K) d

/-- One end starts again with a new pair. What it has built before is still on its way. -/
def restart (d : Dialogue) (s : Side) (p : Party) : Dialogue :=
  Function.update d s ⟨p.pair (d s).pair.remote.key, (d s).built, []⟩

def Accepts (d : Dialogue) (s : Side) (g : SentPacket) (source : Address) (now : Int32) : Prop :=
  ((d s).pair.checkPacket K g.packet source g.viaChannel now).1 = .ok ()

end

/-- A packet of the other end that has not arrived yet, while the clock is not behind the other
end's date by more than the skew. -/
structure Pending (d : Dialogue) (s : Side) (index : Nat) (g : SentPacket) (now : Int32) :
    Prop where
  built : (d s.other).built[index]? = some g
  first : ∀ a ∈ (d s).arrivals, a.index ≠ index
  few : (d s.other).built.length < 2 ^ 64
  inTime : (d s).pair.isFuture (d s.other).pair.own.reinitDate now = false

end Dialogue

/-- What a move can make of one end, given the other one. -/
inductive End.Next (K : KeyScheme) (e o : End) : End → Prop
  | same : Next K e o e
  | acted {event : Pair.Event} (h : event.isInner) : Next K e o (e.act K event)
  | received {i : Nat} {g : SentPacket} (hg : o.built[i]? = some g) (source : Address)
    (now : Int32) : Next K e o (e.receive K i g source now)

theorem End.Next.built {K : KeyScheme} {e o e' : End} (h : End.Next K e o e') {i : Nat}
    {g : SentPacket} (hg : e.built[i]? = some g) : e'.built[i]? = some g := by
  cases h with
  | same => exact hg
  | received => exact hg
  | @acted event =>
    cases event with
    | build ms =>
      have hi : i < e.built.length := (List.getElem?_eq_some_iff.1 hg).1
      change (e.built ++ [_])[i]? = some g
      rw [List.getElem?_append_left hi, hg]
    | _ => exact hg

namespace Dialogue

variable {K : KeyScheme} {d d' : Dialogue}

def Stepped (K : KeyScheme) (d d' : Dialogue) : Prop := ∀ s, (d s).Next K (d s.other) (d' s)

theorem Stepped.built_of_lt (h : Stepped K d d') {s : Side} {i : Nat} {g : SentPacket}
    (hg : (d' s).built[i]? = some g) (hlt : i < (d s).built.length) :
    (d s).built[i]? = some g := by
  have hbuilt := List.getElem?_eq_getElem hlt
  have hsame := (h s).built hbuilt
  rw [hg, Option.some_inj] at hsame
  rw [hbuilt, hsame]

theorem stepped_update {s : Side} {e : End} (h : (d s).Next K (d s.other) e) :
    Stepped K d (Function.update d s e) := by
  intro t
  by_cases ht : t = s
  · subst ht
    rwa [Function.update_self]
  · rw [Function.update_of_ne ht]
    exact .same

theorem stepped_step (K : KeyScheme) (d : Dialogue) (m : Move) : Stepped K d (d.step K m) := by
  cases m with
  | act s event => exact stepped_update (.acted event.2)
  | arrive s i source now =>
    rw [step]
    cases hg : (d s.other).built[i]? with
    | some g => exact stepped_update (.received hg source now)
    | none => exact fun _ => .same

/-- What every step preserves, every run preserves. -/
theorem run_induction {P : Dialogue → Prop} (h : ∀ d d', Stepped K d d' → P d → P d') (hd : P d)
    (ms : List Move) : P (d.run K ms) := by
  induction ms generalizing d with
  | nil => exact hd
  | cons m ms ih => exact ih (h d _ (stepped_step K d m) hd)

/-- Only what the other end has built has arrived. -/
def Honest (d : Dialogue) : Prop :=
  ∀ s, ∀ a ∈ (d s).arrivals, (d s.other).built[a.index]? = some a.sent

theorem Honest.other (hd : d.Honest) (s : Side) :
    ∀ a ∈ (d s.other).arrivals, (d s).built[a.index]? = some a.sent := by
  have ho := hd s.other
  rwa [Side.other_other] at ho

theorem Honest.stepped (hd : d.Honest) (h : Stepped K d d') : d'.Honest := by
  intro s a ha
  apply (h s.other).built
  have hs := h s
  generalize d' s = e at hs ha
  cases hs with
  | same => exact hd s a ha
  | acted => exact hd s a ha
  | received hg =>
    rcases List.mem_cons.1 ha with rfl | ha
    · exact hg
    · exact hd s a ha

end Dialogue

end Adnl
