import Adnl.Host.Basic

/-!
Datagrams on their way in. The first thirty-two bytes name the receiver, who finds the rest in its
queue.
-/
namespace Adnl.Host

def maxDatagramLength : Nat := 65535

def idLength : Nat := 32

def queueForNode (h : Host) (ticket : Nat) (d : Datagram) : Host :=
  match h.nodes.findIdx? (·.ticket = ticket) with
  | none => h
  | some n => (h.modifyNode n fun n => { n with inbox := n.inbox.push d }).wake (.serve n)

def queueForChannel (h : Host) (ticket : Nat) (d : Datagram) : Host :=
  match h.conversations.findIdx? (·.ticket? = some ticket) with
  | none => h
  | some i =>
    { h with conversations := h.conversations.modify i fun c =>
      { c with inbox := c.inbox.push d } }.wake (.converse i .unlock)

/-- Queues a datagram for whoever owns a registration. -/
def queueFor (h : Host) (r : Registration) (d : Datagram) : Host :=
  if h.listeners.any (·.ticket = r.ticket) then
    { h with listeners := h.listeners.map fun l =>
      if l.ticket = r.ticket then { l with inbox := l.inbox.push d } else l }
  else
    match r.kind with
    | .localNode => h.queueForNode r.ticket d
    | .channel => h.queueForChannel r.ticket d

/-- Finds the receiver of a datagram. One that is too short or names nobody is lost. -/
def sort (h : Host) (d : Datagram) : Host :=
  let payload := d.payload.take maxDatagramLength
  match Bytes.toVector? idLength (payload.take idLength) with
  | none => h
  | some id =>
    match h.routes.get? ⟨id⟩ with
    | none => h
    | some r => h.queueFor r { d with payload := payload.drop idLength }

/-- Lets an address's datagram through or not; both count as a check. -/
def checkRate (h : Host) (now : Nat) (ip : Ip) : Bool × Host :=
  let (allowed, limiter) := h.limiter.check ((now - h.since) * 1000000) ip
  (allowed, { h with limiter })

/-- Sorts a datagram unless its sender has sent too many. -/
def routeDatagram (now : Nat) (h : Host) (d : Datagram) : Host :=
  match h.checkRate now d.source.ip with
  | (true, h) => h.sort d
  | (false, h) => h

def route (h : Host) (now : Nat) : Host :=
  if h.isClosed then { h with arrived := [] }
  else h.arrived.foldl (routeDatagram now) { h with arrived := [] }

def arrive (h : Host) (d : Datagram) : Host := { h with arrived := h.arrived ++ [d] }

/-- Registers a queue for an id that is free. -/
def listen (h : Host) (id : ShortId) (kind : RouteKind) (capacity : Nat) : Except Error Host :=
  match h.routes.register id kind with
  | .error e => .error e
  | .ok (ticket, routes) =>
    .ok { h with routes, listeners := h.listeners ++ [⟨id, ticket, { capacity }⟩] }

def unlisten (h : Host) (k : Nat) : Host :=
  match h.listeners[k]? with
  | none => h
  | some l => { h with routes := h.routes.release l.id l.ticket }

def modifyListener (h : Host) (k : Nat) (f : Inbox → Inbox) : Host :=
  { h with listeners := h.listeners.modify k fun l => { l with inbox := f l.inbox } }

/-- Sends data to whoever has the id at an address. Port zero cannot be sent to. -/
def sendTo (h : Host) (id : ShortId) (target : Address) (data : Bytes) : Except Error Host :=
  if target.port = 0 then .error .io
  else .ok (h.emit (.send target (id.bytes.toList ++ data)))

end Adnl.Host
