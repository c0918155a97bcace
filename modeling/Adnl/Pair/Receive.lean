import Adnl.Pair.Basic

/-! Which packets a pair accepts, and what their headers change. -/
namespace Adnl

inductive PacketDrop
  | wrongSender (id : ShortId)
  | badSignature
  /-- The sender claims a later start of this side than there was. -/
  | futureReceiverDate (date own : Int32)
  | futureDate (date : Int32)
  | staleDate (date known : Int32)
  | replay (seqno : UInt64)
  /-- The sender claims to have received what was never sent. -/
  | unsentConfirm (confirm sent : UInt64)
deriving DecidableEq, Repr

def PacketDrop.message : PacketDrop → String
  | .wrongSender id => "sender " ++ id.brief ++ " does not belong to this peer pair"
  | .badSignature => "bad signature"
  | .futureReceiverDate date own =>
    s!"dst_reinit_date {date.toInt} is ahead of our reinit date {own.toInt}"
  | .futureDate date => s!"reinit_date {date.toInt} is too far in the future"
  | .staleDate date known => s!"reinit_date {date.toInt} is older than {known.toInt}"
  | .replay seqno => s!"seqno {seqno.toNat} already seen or too old"
  | .unsentConfirm confirm sent =>
    s!"confirm_seqno {confirm.toNat} was never sent (last {sent.toNat})"

namespace Pair

/-- Whether a date is further ahead of the clock than the skew allows. -/
def isFuture (p : Pair) (date now : Int32) : Bool := now.toInt + p.maxSkew.toInt < date.toInt

/-- Starts over with a peer that started at `date`. The first date heard only is remembered. -/
def reinit (p : Pair) (date now : Int32) : Pair :=
  if p.peerReinitDate = 0 then { p with peerReinitDate := date }
  else
    let (channelSeed, supply) := p.supply.drawKey
    { p with
      peerReinitDate := date
      sent := p.sent.reset
      received := p.received.reset
      channelSeed
      channelDate := now
      channel := none
      createSent := false
      peerKnownVersion := none
      supply }

/-- Takes in the date at which the peer says it started. -/
def observeDate (p : Pair) (date now : Int32) : Except PacketDrop Unit × Pair :=
  if p.isFuture date now then (.error (.futureDate date), p)
  else if date < p.peerReinitDate then (.error (.staleDate date p.peerReinitDate), p)
  else if p.peerReinitDate < date then (.ok (), p.reinit date now)
  else (.ok (), p)

/-- The sender has to be the peer, by signature unless the channel vouches for it. -/
def authenticate (K : KeyScheme) (p : Pair) (packet : Packet) (viaChannel : Bool) :
    Except PacketDrop Unit :=
  let signed : Except PacketDrop Unit :=
    if viaChannel then .ok ()
    else
      match packet.verify K p.remote.key with
      | .ok () => .ok ()
      | .error _ => .error .badSignature
  match packet.senderName with
  | some id => if id = p.remote.key.shortId then signed else .error (.wrongSender id)
  | none => signed

def observeDates (p : Pair) (dates : Option ReinitDates) (now : Int32) :
    Except PacketDrop Unit × Pair :=
  match dates with
  | none => (.ok (), p)
  | some d =>
    if p.own.reinitDate < d.receiver then
      (.error (.futureReceiverDate d.receiver p.own.reinitDate), p)
    else p.observeDate d.own now

/-- Compares a list's epoch with the known one and starts over for a newer one. Whether the list
may be taken over. -/
def screenList (p : Pair) (l : AddressList) (now : Int32) : Bool × Pair :=
  if p.isFuture l.reinitDate now then (false, p)
  else if p.peerReinitDate < l.reinitDate then (true, p.reinit l.reinitDate now)
  else if l.reinitDate < p.peerReinitDate then (false, p)
  else (true, p)

/-- The list of a packet that may be taken over once the rest of the packet is found good. -/
def screenLists (p : Pair) (l : Option AddressList) (now : Int32) : Option AddressList × Pair :=
  match l with
  | none => (none, p)
  | some l =>
    let (usable, p) := p.screenList l now
    (if usable then some l else none, p)

/-- Takes over a list that is newer than the stored one, or confirms the stored one. -/
def adoptList (p : Pair) (l : AddressList) : Pair :=
  if l.isNewerThan p.remote.addresses then
    { p with remote := { p.remote with addresses := l }, listAdopted := true }
  else if l = p.remote.addresses then { p with listAdopted := true }
  else p

/-- The number of a packet has to be new. -/
def deliver (p : Pair) (seqno : Option UInt64) : Except PacketDrop Unit × Pair :=
  match seqno with
  | none => (.ok (), p)
  | some n =>
    let (accepted, received) := p.received.deliver n
    (if accepted then .ok () else .error (.replay n), { p with received })

/-- The peer can only have received what was sent. -/
def checkConfirm (p : Pair) (confirm : Option UInt64) : Except PacketDrop Unit :=
  match confirm with
  | none => .ok ()
  | some n => if p.sent.last < n then .error (.unsentConfirm n p.sent.last) else .ok ()

/-- What an accepted header says about addresses. -/
def applyHeader (p : Pair) (packet : Packet) (l : Option AddressList) (source : Address) : Pair :=
  let p := match l with
    | some l => p.adoptList l
    | none => p
  { p with
    peerKnownVersion := packet.knownVersion.or p.peerKnownVersion
    observed := some source }

/--
Checks a packet and applies its header. What an earlier check has changed stays changed when a
later one fails.
-/
def checkPacket (K : KeyScheme) (p : Pair) (packet : Packet) (source : Address) (viaChannel : Bool)
    (now : Int32) : Except PacketDrop Unit × Pair :=
  match p.authenticate K packet viaChannel with
  | .error d => (.error d, p)
  | .ok () =>
    match p.observeDates packet.reinitDates now with
    | (.error d, p) => (.error d, p)
    | (.ok (), p) =>
      let (l, p) := p.screenLists packet.address now
      match p.deliver packet.seqno with
      | (.error d, p) => (.error d, p)
      | (.ok (), p) =>
        match p.checkConfirm packet.confirmSeqno with
        | .error d => (.error d, p)
        | .ok () => (.ok (), p.applyHeader packet l source)

end Pair

end Adnl
