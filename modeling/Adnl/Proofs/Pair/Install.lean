import Adnl.Crypto.Curve25519
import Adnl.Proofs.Pair.Check
import Adnl.Proofs.Pair.Frame

/-! # What comes of a key of the peer

A key that is announced or confirmed is the installed one, or it is refused, or it takes the place
of the installed one. A refused key leaves the pair and the routing table as they were, with one
exception: the old channel is given up before the inbound id of the new one is asked for. If that id
is taken, the pair is left without a channel.
-/
namespace Adnl.Pair

/-- Another key than the installed one, with a later date. -/
def Supersedes (p : Pair) (key : Bytes32) (date : Int32) : Prop :=
  ∀ c, p.channel = some c → c.remoteKey ≠ key ∧ c.date < date

/-- The ways in which a key can be taken in, with the pair and the table that each leaves. -/
inductive Installing (K : KeyScheme) (p : Pair) (routes : RouteTable) (key : Bytes32) (date : Int32)
    (ready : Bool) : Except Error Unit × Pair × RouteTable → Prop
  | known {c : Channel} (hc : p.channel = some c) (hkey : c.remoteKey = key) :
    Installing K p routes key date ready (.ok (), if ready then p.markReady else p, routes)
  | stale {c : Channel} (hc : p.channel = some c) (hkey : c.remoteKey ≠ key)
    (hdate : date ≤ c.date) : Installing K p routes key date ready
      (.error (.packet (.staleChannel date c.date)), p, routes)
  | disagreed {e : CryptoError} (hnew : p.Supersedes key date)
    (hagree : K.agree p.channelSeed ⟨key⟩ = .error e) :
    Installing K p routes key date ready (.error (.crypto e), p, routes)
  /-- The inbound id is taken, by another channel than the one that has just been given up. -/
  | collided {secret : Bytes32} {keys : ChannelKeys} {r : Registration}
    (hnew : p.Supersedes key date) (hagree : K.agree p.channelSeed ⟨key⟩ = .ok secret)
    (hkeys : ChannelKeys.derive secret (p.own.key K).shortId p.remote.key.shortId = keys)
    (htaken : (Channel.closeReplaced p.channel none routes).get? keys.inId = some r) :
    Installing K p routes key date ready (.error (.idCollision keys.inId r.kind), p.dropChannel,
      Channel.closeReplaced p.channel none routes)
  | installed {secret : Bytes32} {keys : ChannelKeys} {ticket : Nat} {routes' : RouteTable}
    (hnew : p.Supersedes key date) (hagree : K.agree p.channelSeed ⟨key⟩ = .ok secret)
    (hkeys : ChannelKeys.derive secret (p.own.key K).shortId p.remote.key.shortId = keys)
    (hregister : (Channel.closeReplaced p.channel none routes).register keys.inId .channel =
      .ok (ticket, routes')) : Installing K p routes key date ready
        (.ok (), { p with channel := some ⟨key, date, keys, ticket, ready⟩ }, routes')

section
variable (K : KeyScheme) (p : Pair) (routes : RouteTable) (key : Bytes32) (date : Int32)

theorem installing_replace (ready : Bool) (hnew : p.Supersedes key date) :
    Installing K p routes key date ready (install.replace K p routes key date ready) := by
  cases hagree : K.agree p.channelSeed ⟨key⟩ with
  | error e =>
    simp only [install.replace, hagree]
    exact .disagreed hnew hagree
  | ok secret =>
    -- The keys stay folded: nothing depends on how they are derived.
    obtain ⟨keys, hkeys⟩ : ∃ keys, ChannelKeys.derive secret (p.own.key K).shortId
        p.remote.key.shortId = keys := ⟨_, rfl⟩
    cases htaken : (Channel.closeReplaced p.channel none routes).get? keys.inId with
    | some r =>
      simp only [install.replace, hagree, hkeys, RouteTable.register, htaken]
      exact .collided hnew hagree hkeys htaken
    | none =>
      simp only [install.replace, hagree, hkeys, RouteTable.register, htaken]
      exact .installed hnew hagree hkeys (by rw [RouteTable.register, htaken])

theorem install_eq_replace (ready : Bool) (hnew : p.Supersedes key date) :
    p.install K routes key date ready = install.replace K p routes key date ready := by
  rw [install]
  split
  · next c hc => rw [if_neg (hnew c hc).1, if_neg (Int32.not_le.2 (hnew c hc).2)]
  · rfl

theorem installing (ready : Bool) :
    Installing K p routes key date ready (p.install K routes key date ready) := by
  by_cases hnew : p.Supersedes key date
  · rw [p.install_eq_replace K routes key date ready hnew]
    exact p.installing_replace K routes key date ready hnew
  simp only [Supersedes, not_forall, not_and, Int32.not_lt] at hnew
  obtain ⟨c, hc, hstays⟩ := hnew
  rw [install]
  simp only [hc]
  by_cases hkey : c.remoteKey = key
  · rw [if_pos hkey]
    exact .known hc hkey
  · rw [if_neg hkey, if_pos (hstays hkey)]
    exact .stale hc hkey (hstays hkey)

/-- The installed key is not taken in again; it can make the channel ready. -/
theorem install_known {c : Channel} (hc : p.channel = some c) (ready : Bool) :
    p.install K routes c.remoteKey date ready =
      (.ok (), if ready then p.markReady else p, routes) := by
  rw [install]
  simp only [hc, if_true]

theorem install_stale {c : Channel} (hc : p.channel = some c) (hkey : c.remoteKey ≠ key)
    (hdate : date ≤ c.date) (ready : Bool) : p.install K routes key date ready =
      (.error (.packet (.staleChannel date c.date)), p, routes) := by
  rw [install]
  simp only [hc, if_neg hkey, if_pos hdate]

theorem onCreateChannel_eq : p.onCreateChannel K routes key date =
    ((p.install K routes key date false).1.map fun _ =>
      .confirmChannel (p.channelKey K) key p.channelDate, (p.install K routes key date false).2) := by
  obtain ⟨channel, hp⟩ := p.snd_install K routes key date false
  rw [onCreateChannel]
  split <;> rename_i h <;> rw [h] at hp ⊢
  · rfl
  · simp only at hp
    subst hp
    rfl

end

section
variable {K : KeyScheme} {p : Pair} {routes : RouteTable} {key peerKey : Bytes32} {date : Int32}
  {e : Error} {q : Pair × RouteTable}

/-- Nothing has changed, or the channel has been given up for an id that is taken. -/
theorem refused_install {ready : Bool} (h : p.install K routes key date ready = (.error e, q)) :
    q = (p, routes) ∧ (∀ id kind, e ≠ .idCollision id kind) ∨
      ∃ id r, e = .idCollision id r.kind ∧
        (Channel.closeReplaced p.channel none routes).get? id = some r ∧
        q = (p.dropChannel, Channel.closeReplaced p.channel none routes) := by
  have hi := p.installing K routes key date ready
  rw [h] at hi
  cases hi with
  | stale => exact .inl ⟨rfl, nofun⟩
  | disagreed => exact .inl ⟨rfl, nofun⟩
  | collided _ _ _ htaken => exact .inr ⟨_, _, rfl, htaken, rfl⟩

/-- With the id taken, a key is refused that would have taken the place of the installed one. -/
theorem install_of_taken {ready : Bool} {secret : Bytes32} {r : Registration}
    (hnew : p.Supersedes key date) (hagree : K.agree p.channelSeed ⟨key⟩ = .ok secret)
    (htaken : (Channel.closeReplaced p.channel none routes).get?
      (ChannelKeys.derive secret (p.own.key K).shortId p.remote.key.shortId).inId = some r) :
    p.install K routes key date ready =
      (.error (.idCollision
          (ChannelKeys.derive secret (p.own.key K).shortId p.remote.key.shortId).inId r.kind),
        p.dropChannel, Channel.closeReplaced p.channel none routes) := by
  rw [install_eq_replace _ _ _ _ _ _ hnew, install.replace, hagree]
  simp only [RouteTable.register, htaken]

theorem install_of_onCreateChannel (h : p.onCreateChannel K routes key date = (.error e, q)) :
    p.install K routes key date false = (.error e, q) := by
  rw [onCreateChannel_eq] at h
  obtain ⟨hresult, hq⟩ := Prod.mk.inj h
  cases hi : (p.install K routes key date false).1 with
  | ok _ =>
    rw [hi] at hresult
    cases hresult
  | error e' =>
    rw [hi] at hresult
    cases hresult
    exact Prod.ext hi hq

theorem refused_onConfirmChannel (h : p.onConfirmChannel K routes key peerKey date = (.error e, q)) :
    q = (p, routes) ∧ e = .packet .foreignConfirmation ∨
      p.install K routes key date true = (.error e, q) := by
  rw [onConfirmChannel] at h
  split_ifs at h
  · exact .inr h
  · cases h
    exact .inl ⟨rfl, rfl⟩

end

/-- A refused handshake message leaves the pair and the routing table as they were, unless the pair
had a channel and the inbound id of the new one is taken. Then the old channel is gone and its id is
free, nothing else has changed, and the id that was asked for still belongs to another owner. -/
theorem refused_handshake_eq_iff {K : KeyScheme} {p : Pair} {routes : RouteTable} {e : Error}
    {q : Pair × RouteTable}
    (h : (∃ key date, p.onCreateChannel K routes key date = (.error e, q)) ∨
      ∃ key peerKey date, p.onConfirmChannel K routes key peerKey date = (.error e, q)) :
    (q = (p, routes) ↔ p.channel = none ∨ ∀ id kind, e ≠ .idCollision id kind) ∧
      ∀ c id kind, p.channel = some c → e = .idCollision id kind →
        q = (p.dropChannel, c.close routes) ∧
          ∃ r, (c.close routes).get? id = some r ∧ r.kind = kind := by
  have hrefused : q = (p, routes) ∧ (∀ id kind, e ≠ .idCollision id kind) ∨
      ∃ id r, e = .idCollision id r.kind ∧
        (Channel.closeReplaced p.channel none routes).get? id = some r ∧
        q = (p.dropChannel, Channel.closeReplaced p.channel none routes) := by
    obtain ⟨key, date, hcreate⟩ | ⟨key, peerKey, date, hconfirm⟩ := h
    · exact refused_install (install_of_onCreateChannel hcreate)
    · obtain ⟨hsame, rfl⟩ | hinstall := refused_onConfirmChannel hconfirm
      · exact .inl ⟨hsame, nofun⟩
      · exact refused_install hinstall
  obtain ⟨hsame, hother⟩ | ⟨id, r, rfl, htaken, hlost⟩ := hrefused
  · exact ⟨iff_of_true hsame (.inr hother), fun c id kind _ he => absurd he (hother id kind)⟩
  · cases hc : p.channel with
    | none =>
      have hdrop : p.dropChannel = p := by rw [dropChannel, ← hc]
      rw [hc, hdrop] at hlost
      exact ⟨iff_of_true hlost (.inl rfl), nofun⟩
    | some c =>
      rw [hc] at htaken hlost
      refine ⟨iff_of_false (fun hsame => ?_) ?_, ?_⟩
      · rw [hsame] at hlost
        have hnone : p.channel = none := congrArg (fun q => q.1.channel) hlost
        rw [hc] at hnone
        cases hnone
      · rintro (hnone | hother)
        · cases hnone
        · exact hother id r.kind rfl
      · rintro _ _ _ ⟨⟩ ⟨⟩
        exact ⟨hlost, r, htaken, rfl⟩

def joined : Pair :=
  { blank with
    channel := some ⟨.replicate 32 9, 100, ⟨.replicate 32 1, .replicate 32 2⟩, 0, true⟩ }

/-- The table of its host, on which another channel has an id. -/
def contested (id : ShortId) : RouteTable where
  entries := [(id, ⟨.channel, 1⟩),
    (ChannelKeys.inId ⟨.replicate 32 1, .replicate 32 2⟩, ⟨.channel, 0⟩)]
  issued := 2

theorem onCreateChannel_contested : ∃ id,
    joined.onCreateChannel ed25519 (contested id) (.replicate 32 10) 101 =
      (.error (.idCollision id .channel), joined.dropChannel, ⟨[(id, ⟨.channel, 1⟩)], 2⟩) := by
  obtain ⟨secret, hagree⟩ : ∃ secret,
      ed25519.agree joined.channelSeed ⟨.replicate 32 10⟩ = .ok secret := by
    have hok : (ed25519.agree joined.channelSeed ⟨.replicate 32 10⟩).isOk := by decide +kernel
    cases hs : ed25519.agree joined.channelSeed ⟨.replicate 32 10⟩ with
    | error => rw [hs] at hok; cases hok
    | ok secret => exact ⟨secret, rfl⟩
  -- It does not matter which id the key leads to.
  obtain ⟨id, hid⟩ : ∃ id, (ChannelKeys.derive secret (joined.own.key ed25519).shortId
      joined.remote.key.shortId).inId = id := ⟨_, rfl⟩
  have hnew : joined.Supersedes (.replicate 32 10) 101 := by
    rintro c ⟨⟩
    exact ⟨by decide, by decide⟩
  have hrelease : Channel.closeReplaced joined.channel none (contested id) =
      ⟨[(id, ⟨.channel, 1⟩)], 2⟩ := by
    simp [Channel.closeReplaced, joined, contested, Channel.close, RouteTable.release]
  refine ⟨id, ?_⟩
  rw [onCreateChannel_eq, install_of_taken hnew hagree (r := ⟨.channel, 1⟩), hid, hrelease]
  · rfl
  · rw [hid, hrelease]
    simp [RouteTable.get?]

theorem refused_handshake_eq_iff_contested : ∃ id q,
    joined.onCreateChannel ed25519 (contested id) (.replicate 32 10) 101 =
        (.error (.idCollision id .channel), q) ∧
      ¬ q = (joined, contested id) ∧ ∃ r, q.2.get? id = some r ∧ r.kind = .channel := by
  obtain ⟨id, h⟩ := onCreateChannel_contested
  obtain ⟨hiff, hlost⟩ := refused_handshake_eq_iff (.inl ⟨_, _, h⟩)
  refine ⟨id, _, h, fun hsame => ?_, ?_⟩
  · obtain hnone | hother := hiff.1 hsame
    · cases hnone
    · exact hother id .channel rfl
  · obtain ⟨hq, r, hr, hkind⟩ := hlost _ id .channel rfl rfl
    exact ⟨r, by rw [hq]; exact hr, hkind⟩

/-- A key that is refused costs the pair the channel that it had in use. -/
theorem refused_handshake_ne_contested : ∃ id q,
    joined.onCreateChannel ed25519 (contested id) (.replicate 32 10) 101 =
        (.error (.idCollision id .channel), q) ∧
      joined.handshake = .ready ∧ q.1.handshake = .noChannel ∧ q ≠ (joined, contested id) := by
  obtain ⟨id, h⟩ := onCreateChannel_contested
  refine ⟨id, _, h, rfl, rfl, fun hsame => ?_⟩
  have hnone : joined.dropChannel.channel = joined.channel :=
    congrArg (fun q => q.1.channel) hsame
  cases hnone

end Adnl.Pair
