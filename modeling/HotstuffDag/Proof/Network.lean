import HotstuffDag.Network
import HotstuffDag.Sample
import Mathlib.Data.List.Flatten
import Mathlib.Data.List.Perm.Subperm

/-! # What arrives over the network

A sender has one live connection to an address at a time, and it is the newest one. So the frames on
all its connections to an address, in the order of these, are frames it was given for the address, in
their order. Only the end of a connection loses any. -/

namespace HotstuffDag
open Library
open scoped List

section
variable {α : Type}

theorem getElem?_split {l : List α} {i : Nat} {x : α} (h : l[i]? = some x) :
    ∃ l₁ l₂, l = l₁ ++ x :: l₂ ∧ l₁.length = i ∧ ∀ f, l.modify i f = l₁ ++ f x :: l₂ := by
  induction l generalizing i with
  | nil => simp at h
  | cons y l ih =>
      cases i with
      | zero =>
          obtain rfl : y = x := by simpa using h
          exact ⟨[], l, rfl, rfl, fun f => rfl⟩
      | succ i =>
          obtain ⟨l₁, l₂, rfl, length, changed⟩ := ih (by simpa using h)
          exact ⟨y :: l₁, l₂, rfl, by simp [length], fun f => by simp [changed f]⟩

end

section
variable {Frame : Type}

/-! ## One connection -/

namespace Connection

/-- The frames that a connection has taken on and not lost. -/
def held (c : Connection Frame) : List Frame := c.written ++ (c.sending.toList ++ c.queue)

/-- How a task may change its connection. -/
structure Goes (c c' : Connection Frame) : Prop where
  address : c'.address = c.address
  held : c'.held <+ c.held
  kept : c'.stage ≠ .returned → c'.held = c.held
  ended : c.stage = .returned → c'.stage = .returned

variable {c c' : Connection Frame}

theorem Goes.refl (c : Connection Frame) : Goes c c := ⟨rfl, List.Sublist.refl _, fun _ => rfl, id⟩

theorem Goes.same (address : c'.address = c.address) (held : c'.held = c.held) (ended : c.stage = .returned → c'.stage = .returned) :
    Goes c c' :=
  ⟨address, by rw [held], fun _ => held, ended⟩

theorem goes_quit (c : Connection Frame) : Goes c c.quit where
  address := rfl
  held := by simp [Connection.held, quit]
  kept := fun live => absurd rfl live
  ended := fun _ => rfl

theorem goes_connect (c : Connection Frame) (ok : Bool) : Goes c (c.connect ok) := by
  unfold connect
  split
  · rename_i connecting
    cases ok with
    | true => exact .same rfl rfl fun ended => by rw [connecting] at ended; contradiction
    | false => exact goes_quit c
  · exact .refl c

theorem goes_recv (c : Connection Frame) : Goes c c.recv := by
  unfold recv
  split
  · rename_i connected idle queued
    refine .same rfl ?_ id
    simp [Connection.held, idle, queued]
  · exact .refl c

theorem goes_send (c : Connection Frame) (ok : Bool) : Goes c (c.send ok) := by
  unfold send
  split
  · rename_i frame busy
    cases ok with
    | true =>
        refine .same rfl ?_ id
        simp [Connection.held, busy]
    | false => exact goes_quit c
  · exact .refl c

theorem goes_deliver {Message : Type} [NetBincode Message Frame] (c : Connection Frame) :
    Goes c (@deliver Message Frame _ c).1 := by
  unfold deliver
  split
  · exact .refl c
  · split
    · exact .refl c
    · split
      · exact .same rfl rfl id
      · exact .same rfl rfl id

end Connection

/-! ## The connections of a sender -/

/-- The frames that messages have for an address, in order. -/
def framesFor (address : SocketAddr) (messages : List (NetMessage Frame)) : List Frame :=
  messages.flatMap fun m => List.replicate (m.addresses.count address) m.bytes

theorem framesFor_append (address : SocketAddr) (first rest : List (NetMessage Frame)) :
    framesFor address (first ++ rest) = framesFor address first ++ framesFor address rest := by
  simp [framesFor]

/-- The turn of an address uses up one of the frames for it. -/
theorem framesFor_turn (a b : SocketAddr) (bytes : Frame) (rest : List SocketAddr) (messages : List (NetMessage Frame)) :
    framesFor b (⟨bytes, a :: rest⟩ :: messages) =
      (if a = b then [bytes] else []) ++ framesFor b (⟨bytes, rest⟩ :: messages) := by
  by_cases same : a = b
  · subst same
    simp [framesFor, List.replicate_succ]
  · simp [framesFor, same]

/-- The connections to an address, in the order in which they were made. -/
def NetSender.connectionsTo (s : NetSender Frame) (address : SocketAddr) : List (Connection Frame) :=
  s.connections.filter (·.address = address)

/-- The frames that the connections to an address have taken on. -/
def heldFor (address : SocketAddr) (connections : List (Connection Frame)) : List Frame :=
  (connections.filter (·.address = address)).flatMap Connection.held

theorem heldFor_append (address : SocketAddr) (first rest : List (Connection Frame)) :
    heldFor address (first ++ rest) = heldFor address first ++ heldFor address rest := by
  simp [heldFor]

theorem heldFor_cons (address : SocketAddr) (c : Connection Frame) (rest : List (Connection Frame)) :
    heldFor address (c :: rest) = (if c.address = address then c.held else []) ++ heldFor address rest := by
  by_cases same : c.address = address <;> simp [heldFor, same]

theorem heldFor_nil {address : SocketAddr} {connections : List (Connection Frame)}
    (none : ∀ c ∈ connections, c.address ≠ address) : heldFor address connections = [] := by
  have empty : connections.filter (·.address = address) = [] :=
    List.filter_eq_nil_iff.mpr fun c mem => by simpa using none c mem
  rw [heldFor, empty, List.flatMap_nil]

theorem heldFor_goes (address : SocketAddr) {first rest : List (Connection Frame)} {c c' : Connection Frame}
    (goes : c.Goes c') : heldFor address (first ++ c' :: rest) <+ heldFor address (first ++ c :: rest) := by
  rw [heldFor_append, heldFor_append, heldFor_cons, heldFor_cons, goes.address]
  apply List.Sublist.append_left
  apply List.Sublist.append_right
  split
  · exact goes.held
  · exact List.Sublist.refl _

namespace NetSender

/-- The messages that are not served yet, with what is left of the one in hand. -/
def waiting (s : NetSender Frame) : List (NetMessage Frame) := s.current.toList ++ s.transmit

/-- Which connections live. -/
structure Routed (s : NetSender Frame) : Prop where
  known : ∀ a i, s.senders.get? a = some i → ∃ c, s.connections[i]? = some c ∧ c.address = a
  spawned : ∀ i, s.spawned = some i → ∃ bytes a rest c, s.current = some ⟨bytes, a :: rest⟩ ∧
    s.connections[i]? = some c ∧ c.address = a
  live : ∀ i c, s.connections[i]? = some c → c.stage ≠ .returned →
    s.senders.get? c.address = some i ∨ s.spawned = some i
  newest : ∀ (i j : Nat) (c d : Connection Frame), s.connections[i]? = some c → s.connections[j]? = some d →
    c.address = d.address → i < j → c.stage = .returned

/-- What has become of the messages that were handed over. -/
structure Accounts (handed : List (NetMessage Frame)) (s : NetSender Frame) : Prop where
  routed : s.Routed
  order : ∀ a, heldFor a s.connections ++ framesFor a s.waiting <+ framesFor a handed
  kept : ∀ a, (∀ c ∈ s.connectionsTo a, c.stage ≠ .returned) →
    heldFor a s.connections ++ framesFor a s.waiting = framesFor a handed

variable {handed : List (NetMessage Frame)} {s : NetSender Frame}

theorem mem_connectionsTo {a : SocketAddr} {c : Connection Frame} :
    c ∈ s.connectionsTo a ↔ c ∈ s.connections ∧ c.address = a := by
  simp [connectionsTo]

theorem accounts_new : Accounts [] (new : NetSender Frame) where
  routed := ⟨fun a i found => by simp [new] at found, fun i found => by simp [new] at found,
    fun i c found => by simp [new] at found, fun i j c d found => by simp [new] at found⟩
  order := fun a => by simp [new, waiting, heldFor, framesFor]
  kept := fun a _ => by simp [new, waiting, heldFor, framesFor]

theorem Accounts.hand (h : Accounts handed s) (message : NetMessage Frame) : Accounts (handed ++ [message]) (s.hand message) := by
  have more (a : SocketAddr) : framesFor a (s.hand message).waiting = framesFor a s.waiting ++ framesFor a [message] := by
    rw [← framesFor_append]
    simp [waiting, NetSender.hand]
  refine ⟨⟨h.routed.known, h.routed.spawned, h.routed.live, h.routed.newest⟩, fun a => ?_, fun a whole => ?_⟩
  · rw [more, framesFor_append, ← List.append_assoc]
    exact (h.order a).append_right _
  · rw [more, framesFor_append, ← List.append_assoc]
    exact congrArg (· ++ _) (h.kept a whole)

theorem Accounts.next (h : Accounts handed s) : Accounts handed s.next := by
  unfold NetSender.next
  split
  · rename_i message rest idle queued
    have same : waiting { s with current := some message, transmit := rest } = s.waiting := by
      simp [waiting, idle, queued]
    refine ⟨⟨h.routed.known, fun i found => ?_, h.routed.live, h.routed.newest⟩, fun a => ?_, fun a whole => ?_⟩
    · obtain ⟨bytes, a, rest, c, busy, -⟩ := h.routed.spawned i found
      rw [idle] at busy
      contradiction
    · rw [same]
      exact h.order a
    · rw [same]
      exact h.kept a whole
  · exact h

/-- A task changes its connection. -/
theorem Accounts.change (h : Accounts handed s) (place : Nat) {f : Connection Frame → Connection Frame}
    (goes : ∀ c : Connection Frame, c.Goes (f c)) : Accounts handed (s.change place f) := by
  have back {i : Nat} {c' : Connection Frame} (found : (s.change place f).connections[i]? = some c') :
      ∃ c, s.connections[i]? = some c ∧ c.Goes c' := by
    simp only [NetSender.change, List.getElem?_modify] at found
    obtain ⟨c, was, rfl⟩ := Option.map_eq_some_iff.mp found
    refine ⟨c, was, ?_⟩
    split
    · exact goes c
    · exact .refl c
  have forth {i : Nat} {c : Connection Frame} (found : s.connections[i]? = some c) :
      ∃ c', (s.change place f).connections[i]? = some c' ∧ c.Goes c' := by
    simp only [NetSender.change, List.getElem?_modify, found]
    refine ⟨_, rfl, ?_⟩
    split
    · exact goes c
    · exact .refl c
  refine ⟨⟨fun a i found => ?_, fun i found => ?_, fun i c' found live => ?_, fun i j c' d' found found' same lt => ?_⟩,
    fun a => ?_, fun a whole => ?_⟩
  · obtain ⟨c, was, rfl⟩ := h.routed.known a i found
    obtain ⟨c', found', gone⟩ := forth was
    exact ⟨c', found', gone.address⟩
  · obtain ⟨bytes, a, rest, c, busy, found, rfl⟩ := h.routed.spawned i found
    obtain ⟨c', found', gone⟩ := forth found
    exact ⟨bytes, _, rest, c', busy, found', gone.address⟩
  · obtain ⟨c, found, gone⟩ := back found
    rw [gone.address]
    exact h.routed.live i c found fun ended => live (gone.ended ended)
  · obtain ⟨c, found, gone⟩ := back found
    obtain ⟨d, found', gone'⟩ := back found'
    rw [gone.address, gone'.address] at same
    exact gone.ended (h.routed.newest i j c d found found' same lt)
  · show heldFor a (s.connections.modify place f) ++ framesFor a s.waiting <+ _
    refine List.Sublist.trans (List.Sublist.append_right ?_ _) (h.order a)
    cases found : s.connections[place]? with
    | none =>
        rw [List.modify_eq_self (List.getElem?_eq_none_iff.mp found)]
    | some c =>
        obtain ⟨first, rest, split, -, changed⟩ := getElem?_split found
        rw [changed f, split]
        exact heldFor_goes a (goes c)
  · show heldFor a (s.connections.modify place f) ++ framesFor a s.waiting = _
    cases found : s.connections[place]? with
    | none =>
        simp only [NetSender.connectionsTo, NetSender.change,
          List.modify_eq_self (List.getElem?_eq_none_iff.mp found)] at whole ⊢
        exact h.kept a whole
    | some c =>
        obtain ⟨first, rest, split, -, changed⟩ := getElem?_split found
        have others : ∀ d ∈ s.connectionsTo a, d.stage ≠ .returned := by
          intro d mem ended
          obtain ⟨mem, same⟩ := mem_connectionsTo.mp mem
          obtain ⟨i, found⟩ := List.mem_iff_getElem?.mp mem
          obtain ⟨d', found', gone⟩ := forth found
          exact whole d' (mem_connectionsTo.mpr ⟨List.mem_of_getElem? found', gone.address.trans same⟩) (gone.ended ended)
        rw [← h.kept a others, changed f, split, heldFor_append, heldFor_append, heldFor_cons, heldFor_cons, (goes c).address]
        split
        · rename_i same
          have live : (f c).stage ≠ .returned := by
            apply whole (f c)
            rw [mem_connectionsTo]
            refine ⟨?_, (goes c).address.trans same⟩
            show f c ∈ s.connections.modify place f
            rw [changed f]
            simp
          rw [(goes c).kept live]
        · rfl

theorem offer_live {place : Nat} (h : s.offer place = .sent) : ∃ c, s.connections[place]? = some c ∧ c.stage ≠ .returned := by
  unfold offer at h
  split at h
  · contradiction
  · split at h
    · contradiction
    · exact ⟨_, ‹_›, ‹_›⟩

theorem offer_closed {place : Nat} (h : s.offer place = .closed) :
    ∀ c, s.connections[place]? = some c → c.stage = .returned := by
  intro c found
  unfold offer at h
  rw [found] at h
  dsimp only at h
  split at h
  · assumption
  · split at h <;> contradiction

/-- The turn of an address is in hand. -/
theorem waiting_turn {bytes : Frame} {a : SocketAddr} {rest : List SocketAddr} (busy : s.current = some ⟨bytes, a :: rest⟩)
    (b : SocketAddr) : framesFor b s.waiting =
      (if a = b then [bytes] else []) ++ framesFor b (⟨bytes, rest⟩ :: s.transmit) := by
  rw [waiting, busy, Option.toList_some, List.singleton_append, framesFor_turn]

/-- A new connection to an address that none lives to. -/
theorem Accounts.spawn (h : Accounts handed s) {bytes : Frame} {a : SocketAddr} {rest : List SocketAddr}
    (busy : s.current = some ⟨bytes, a :: rest⟩) (idle : s.spawned = none)
    (dead : ∀ i, s.senders.get? a = some i → s.offer i = .closed) : Accounts handed (s.spawnWorker a) := by
  have old {i : Nat} {c : Connection Frame} (found : (s.spawnWorker a).connections[i]? = some c) :
      s.connections[i]? = some c ∨ i = s.connections.length ∧ c = Connection.new a := by
    simp only [spawnWorker, List.getElem?_append, List.getElem?_singleton] at found
    split at found
    · exact .inl found
    · split at found
      · exact .inr ⟨by omega, (Option.some.inj found).symm⟩
      · contradiction
  have kept {i : Nat} {c : Connection Frame} (found : s.connections[i]? = some c) :
      (s.spawnWorker a).connections[i]? = some c := by
    rw [spawnWorker, List.getElem?_append_left (List.getElem?_eq_some_iff.mp found).1]
    exact found
  have added : (s.spawnWorker a).connections[s.connections.length]? = some (Connection.new a) := by
    simp [spawnWorker]
  have ended {i : Nat} {c : Connection Frame} (found : s.connections[i]? = some c) (same : c.address = a) :
      c.stage = .returned := by
    by_contra live
    rcases h.routed.live i c found live with kept | fresh
    · rw [same] at kept
      exact live (offer_closed (dead i kept) c found)
    · rw [idle] at fresh
      contradiction
  have still (b : SocketAddr) : heldFor b (s.spawnWorker a).connections = heldFor b s.connections := by
    rw [spawnWorker, heldFor_append, heldFor_cons]
    simp [Connection.new, Connection.held, heldFor]
  refine ⟨⟨fun b i found => ?_, fun i found => ?_, fun i c found live => ?_, fun i j c d found found' same lt => ?_⟩,
    fun b => ?_, fun b whole => ?_⟩
  · obtain ⟨c, found, same⟩ := h.routed.known b i found
    exact ⟨c, kept found, same⟩
  · obtain rfl := Option.some.inj found
    exact ⟨bytes, a, rest, _, busy, added, rfl⟩
  · rcases old found with before | ⟨rfl, rfl⟩
    · rcases h.routed.live i c before live with kept | fresh
      · exact .inl kept
      · rw [idle] at fresh
        contradiction
    · exact .inr rfl
  · rcases old found with before | ⟨rfl, rfl⟩
    · rcases old found' with before' | ⟨rfl, rfl⟩
      · exact h.routed.newest i j c d before before' same lt
      · exact ended before same
    · rcases old found' with before' | ⟨rfl, rfl⟩
      · have bound := (List.getElem?_eq_some_iff.mp before').1
        omega
      · omega
  · rw [still]
    exact h.order b
  · rw [still]
    apply h.kept b
    intro c mem
    obtain ⟨mem, same⟩ := mem_connectionsTo.mp mem
    exact whole c (mem_connectionsTo.mpr ⟨List.mem_append_left _ mem, same⟩)

/-- The frame goes into the channel of the live connection. -/
theorem Accounts.push (h : Accounts handed s) {bytes : Frame} {a : SocketAddr} {rest : List SocketAddr}
    (busy : s.current = some ⟨bytes, a :: rest⟩) {place : Nat} {c : Connection Frame}
    (found : s.connections[place]? = some c) (same : c.address = a) (open_ : c.stage ≠ .returned)
    {senders : Map SocketAddr Nat} (kept : senders.get? a = some place)
    (others : ∀ b, b ≠ a → senders.get? b = s.senders.get? b)
    (spawned : ∀ i, s.spawned = some i → i = place) :
    Accounts handed { s.push place bytes rest with senders := senders } := by
  have back {i : Nat} {d' : Connection Frame} (was : (s.push place bytes rest).connections[i]? = some d') :
      ∃ d, s.connections[i]? = some d ∧ d'.address = d.address ∧ d'.stage = d.stage := by
    simp only [NetSender.push, NetSender.change, List.getElem?_modify] at was
    obtain ⟨d, old, rfl⟩ := Option.map_eq_some_iff.mp was
    refine ⟨d, old, ?_⟩
    split <;> exact ⟨rfl, rfl⟩
  have forth {i : Nat} {d : Connection Frame} (was : s.connections[i]? = some d) :
      ∃ d', (s.push place bytes rest).connections[i]? = some d' ∧ d'.address = d.address ∧ d'.stage = d.stage := by
    simp only [NetSender.push, NetSender.change, List.getElem?_modify, was]
    refine ⟨_, rfl, ?_⟩
    split <;> exact ⟨rfl, rfl⟩
  have only {i : Nat} {d : Connection Frame} (was : s.connections[i]? = some d) (dest : d.address = a)
      (live : d.stage ≠ .returned) : i = place := by
    rcases Nat.lt_trichotomy i place with lt | eq | gt
    · exact absurd (h.routed.newest i place d c was found (dest.trans same.symm) lt) live
    · exact eq
    · exact absurd (h.routed.newest place i c d found was (same.trans dest.symm) gt) open_
  obtain ⟨first, later, split, length, changed⟩ := getElem?_split found
  have newest : ∀ d ∈ later, d.address ≠ a := by
    intro d mem dest
    obtain ⟨j, was⟩ := List.mem_iff_getElem?.mp mem
    apply open_
    apply h.routed.newest place (place + 1 + j) c d found ?_ (same.trans dest.symm) (by omega)
    rw [split, ← length, List.getElem?_append_right (by omega)]
    have skip : first.length + 1 + j - first.length = j + 1 := by omega
    rw [skip, List.getElem?_cons_succ]
    exact was
  have grown (b : SocketAddr) : heldFor b (s.push place bytes rest).connections =
      heldFor b s.connections ++ if a = b then [bytes] else [] := by
    simp only [NetSender.push, NetSender.change]
    rw [changed, split, heldFor_append, heldFor_append, heldFor_cons, heldFor_cons, same]
    by_cases here : a = b
    · subst here
      rw [heldFor_nil newest]
      simp [Connection.held]
    · simp [here]
  have moved (b : SocketAddr) : heldFor b (s.push place bytes rest).connections ++ framesFor b (⟨bytes, rest⟩ :: s.transmit) =
      heldFor b s.connections ++ framesFor b s.waiting := by
    rw [grown, waiting_turn busy, List.append_assoc]
  refine ⟨⟨fun b i at_ => ?_, fun i at_ => ?_, fun i d' was live => ?_, fun i j d' e' was was' dest lt => ?_⟩, fun b => ?_,
    fun b whole => ?_⟩
  · by_cases here : b = a
    · subst here
      obtain rfl := Option.some.inj (kept.symm.trans at_)
      obtain ⟨c', now, address, -⟩ := forth found
      exact ⟨c', now, address.trans same⟩
    · obtain ⟨d, was, dest⟩ := h.routed.known b i ((others b here).symm.trans at_)
      obtain ⟨d', now, address, -⟩ := forth was
      exact ⟨d', now, address.trans dest⟩
  · contradiction
  · obtain ⟨d, old, address, stage⟩ := back was
    rw [stage] at live
    rw [address]
    refine .inl ?_
    by_cases here : d.address = a
    · rw [only old here live, here]
      exact kept
    · rcases h.routed.live i d old live with sender | fresh
      · exact (others _ here).trans sender
      · obtain rfl := spawned i fresh
        obtain rfl := Option.some.inj (old.symm.trans found)
        exact absurd same here
  · obtain ⟨d, old, address, stage⟩ := back was
    obtain ⟨e, old', address', -⟩ := back was'
    rw [stage]
    rw [address, address'] at dest
    exact h.routed.newest i j d e old old' dest lt
  · show heldFor b (s.push place bytes rest).connections ++ framesFor b (⟨bytes, rest⟩ :: s.transmit) <+ _
    rw [moved]
    exact h.order b
  · show heldFor b (s.push place bytes rest).connections ++ framesFor b (⟨bytes, rest⟩ :: s.transmit) = _
    rw [moved]
    apply h.kept b
    intro d mem
    obtain ⟨mem, dest⟩ := mem_connectionsTo.mp mem
    obtain ⟨i, was⟩ := List.mem_iff_getElem?.mp mem
    obtain ⟨d', now, address, stage⟩ := forth was
    rw [← stage]
    exact whole d' (mem_connectionsTo.mpr ⟨List.mem_of_getElem? now, address.trans dest⟩)

/-- The frame is lost with the connection that was spawned for it. -/
theorem Accounts.lose (h : Accounts handed s) {bytes : Frame} {a : SocketAddr} {rest : List SocketAddr}
    (busy : s.current = some ⟨bytes, a :: rest⟩) {place : Nat} (spawned : s.spawned = some place)
    (dead : s.offer place = .closed) : Accounts handed { s with current := some ⟨bytes, rest⟩, spawned := none } := by
  obtain ⟨bytes', a', rest', c, busy', found, same⟩ := h.routed.spawned place spawned
  obtain ⟨rfl, rfl, rfl⟩ : bytes = bytes' ∧ a = a' ∧ rest = rest' := by
    rw [busy] at busy'
    simpa using busy'
  have ended := offer_closed dead c found
  refine ⟨⟨h.routed.known, fun i at_ => ?_, fun i d was live => ?_, h.routed.newest⟩, fun b => ?_, fun b whole => ?_⟩
  · contradiction
  · rcases h.routed.live i d was live with sender | fresh
    · exact .inl sender
    · obtain rfl := Option.some.inj (spawned.symm.trans fresh)
      obtain rfl := Option.some.inj (was.symm.trans found)
      exact absurd ended live
  · have before := h.order b
    rw [waiting_turn busy] at before
    refine List.Sublist.trans (List.Sublist.append_left ?_ _) before
    exact List.sublist_append_right _ _
  · have other : a ≠ b := by
      rintro rfl
      exact whole c (mem_connectionsTo.mpr ⟨List.mem_of_getElem? found, same⟩) ended
    have before := h.kept b whole
    rw [waiting_turn busy, if_neg other] at before
    exact before

theorem Accounts.serve (h : Accounts handed s) : Accounts handed s.serve := by
  unfold NetSender.serve
  split
  · exact h
  · rename_i bytes busy
    have same (a : SocketAddr) : framesFor a (waiting { s with current := none }) = framesFor a s.waiting := by
      simp [waiting, busy, framesFor]
    refine ⟨⟨h.routed.known, fun i at_ => ?_, h.routed.live, h.routed.newest⟩, fun a => ?_, fun a whole => ?_⟩
    · obtain ⟨bytes', a, rest, c, busy', -⟩ := h.routed.spawned i at_
      rw [busy] at busy'
      simp at busy'
    · rw [same]
      exact h.order a
    · rw [same]
      exact h.kept a whole
  · rename_i bytes a rest busy
    split
    · rename_i idle
      split
      · rename_i unknown
        exact h.spawn busy idle fun i found => by rw [unknown] at found; contradiction
      · rename_i place sender
        split
        · rename_i taken
          obtain ⟨c, found, live⟩ := offer_live taken
          obtain ⟨c', found', same⟩ := h.routed.known a place sender
          obtain rfl := Option.some.inj (found.symm.trans found')
          exact h.push busy found same live sender (fun _ _ => rfl) fun i fresh => by rw [idle] at fresh; contradiction
        · exact h
        · rename_i dead
          exact h.spawn busy idle fun i found => by rwa [Option.some.inj (found.symm.trans sender)]
    · rename_i place spawned
      split
      · rename_i taken
        obtain ⟨c, found, live⟩ := offer_live taken
        obtain ⟨bytes', a', rest', c', busy', found', same⟩ := h.routed.spawned place spawned
        obtain rfl : a = a' := by
          rw [busy] at busy'
          simp only [Option.some.injEq, NetMessage.mk.injEq, List.cons.injEq] at busy'
          exact busy'.2.1
        obtain rfl := Option.some.inj (found.symm.trans found')
        apply h.push busy found same live (Map.get?_insert_self _ _ _)
        · exact fun b other => Map.get?_insert_ne _ _ (Ne.symm other)
        · exact fun i fresh => Option.some.inj (fresh.symm.trans spawned)
      · exact h
      · exact h.lose busy spawned ‹_›

theorem Accounts.task (h : Accounts handed s) (task : NetTask) : Accounts handed (s.task task) := by
  cases task with
  | next => exact h.next
  | serve => exact h.serve
  | connect place ok => exact h.change place fun c => c.goes_connect ok
  | recv place => exact h.change place Connection.goes_recv
  | send place ok => exact h.change place fun c => c.goes_send ok

/-- What has been handed over in a run. -/
def handedOver (inputs : List (NetInput Frame)) : List (NetMessage Frame) :=
  inputs.filterMap fun
    | .hand message => some message
    | .task _ => none

theorem accounts_run (inputs : List (NetInput Frame)) : Accounts (handedOver inputs) (new.run inputs) := by
  induction inputs using List.reverseRecOn with
  | nil => exact accounts_new
  | append_singleton inputs input ih =>
      rw [run, List.foldl_append, handedOver, List.filterMap_append]
      cases input with
      | hand message => exact ih.hand message
      | task task =>
          rw [List.filterMap_cons_none rfl, List.filterMap_nil, List.append_nil]
          exact ih.task task

/-- Of the connections to an address at most one lives. -/
theorem Routed.single (h : s.Routed) {i j : Nat} {c d : Connection Frame} (found : s.connections[i]? = some c)
    (found' : s.connections[j]? = some d) (same : c.address = d.address) (live : c.stage ≠ .returned)
    (live' : d.stage ≠ .returned) : i = j := by
  rcases Nat.lt_trichotomy i j with lt | eq | gt
  · exact absurd (h.newest i j c d found found' same lt) live
  · exact eq
  · exact absurd (h.newest j i d c found' found same.symm gt) live'

theorem written_sublist (a : SocketAddr) (s : NetSender Frame) :
    (s.connectionsTo a).flatMap Connection.written <+ heldFor a s.connections :=
  List.Sublist.flatMap_right _ fun _ _ => List.sublist_append_left _ _

/-- Over all its connections to an address a sender writes frames it was given for the address, in their order and
each at most once. At most one of the connections lives, and while none has ended nothing is lost. -/
theorem frames_in_order (inputs : List (NetInput Frame)) (a : SocketAddr) :
    ((new.run inputs).connectionsTo a).flatMap Connection.written <+ framesFor a (handedOver inputs) ∧
      (∀ (i j : Nat) (c d : Connection Frame), (new.run inputs).connections[i]? = some c →
        (new.run inputs).connections[j]? = some d → c.address = a → d.address = a → c.stage ≠ .returned →
        d.stage ≠ .returned → i = j) ∧
      ((∀ c ∈ (new.run inputs).connectionsTo a, c.stage ≠ .returned) →
        heldFor a (new.run inputs).connections ++ framesFor a (new.run inputs).waiting = framesFor a (handedOver inputs)) := by
  have accounts := accounts_run inputs
  refine ⟨?_, fun i j c d found found' same same' => ?_, accounts.kept a⟩
  · exact (written_sublist a _).trans ((List.sublist_append_left _ _).trans (accounts.order a))
  · exact accounts.routed.single found found' (same.trans same'.symm)

end NetSender

/-! ## A lane -/

namespace Lane
variable [NetBincode ConsensusMessage Frame]

/-- The messages for an address. -/
def messagesFor (address : SocketAddr) (inputs : List FilterInput) : List ConsensusMessage :=
  inputs.flatMap fun input => List.replicate (input.2.count address) input.1

/-- What has come into the channel in a run. -/
def sent (inputs : List LaneInput) : List FilterInput :=
  inputs.filterMap fun
    | .transmit input => some input
    | _ => none

def frame (input : FilterInput) : NetMessage Frame := ⟨NetBincode.serialize input.1, input.2⟩

/-- What has gone through the filter, beside what it still holds. -/
def Accounts (sent : List FilterInput) (lane : Lane Frame) : Prop :=
  ∃ handed, (handed ++ (lane.pending ++ lane.channel)).Perm sent ∧ lane.net.Accounts (handed.map frame)

variable {given : List FilterInput} {lane : Lane Frame}

theorem Accounts.step (h : lane.Accounts given) (input : LaneInput) :
    (lane.step input).Accounts (given ++ sent [input]) := by
  obtain ⟨handed, all, net⟩ := h
  cases input with
  | transmit input =>
      refine ⟨handed, ?_, net⟩
      show (handed ++ (lane.pending ++ (lane.channel ++ [input]))).Perm (given ++ [input])
      rw [← List.append_assoc, ← List.append_assoc, List.append_assoc handed]
      exact all.append_right _
  | delay =>
      rw [show sent [LaneInput.delay] = [] from rfl, List.append_nil]
      unfold Lane.step
      dsimp only
      split
      · exact ⟨handed, all, net⟩
      · rename_i input rest queued
        refine ⟨handed, ?_, net⟩
        rw [queued] at all
        simpa using all
  | ready place =>
      rw [show sent [LaneInput.ready place] = [] from rfl, List.append_nil]
      show (lane.ready place).Accounts given
      unfold Lane.ready
      split
      · exact ⟨handed, all, net⟩
      · rename_i message addresses found
        split
        · refine ⟨handed ++ [(message, addresses)], ?_, ?_⟩
          · obtain ⟨lt, at_⟩ := List.getElem?_eq_some_iff.mp found
            have taken := List.getElem_cons_eraseIdx_perm lt
            rw [at_] at taken
            refine List.Perm.trans ?_ all
            rw [List.append_assoc]
            apply List.Perm.append_left
            exact taken.append_right _
          · rw [List.map_append]
            exact net.hand _
        · exact ⟨handed, all, net⟩
  | net task =>
      rw [show sent [LaneInput.net task] = [] from rfl, List.append_nil]
      exact ⟨handed, all, net.task task⟩
  | deliver place =>
      rw [show sent [LaneInput.deliver place] = [] from rfl, List.append_nil]
      exact ⟨handed, all, net.change place fun c => c.goes_deliver⟩

theorem accounts_run (inputs : List LaneInput) : (Lane.new.run inputs : Lane Frame).Accounts (sent inputs) := by
  induction inputs using List.reverseRecOn with
  | nil => exact ⟨[], .refl _, NetSender.accounts_new⟩
  | append_singleton inputs input ih =>
      rw [run, List.foldl_append, sent, List.filterMap_append]
      exact ih.step input

/-- Frames of messages that survive their encoding read back as these messages. -/
theorem deserialize_frames (a : SocketAddr) {handed : List FilterInput}
    (round : ∀ x ∈ handed, NetBincode.deserialize (NetBincode.serialize x.1 : Frame) = some x.1) :
    (framesFor a (handed.map frame : List (NetMessage Frame))).filterMap NetBincode.deserialize = messagesFor a handed := by
  induction handed with
  | nil => rfl
  | cons x handed ih =>
      have rest := ih fun y mem => round y (List.mem_cons_of_mem _ mem)
      have first := round x List.mem_cons_self
      simp only [framesFor, messagesFor, List.map_cons, List.flatMap_cons, List.filterMap_append] at rest ⊢
      rw [rest, frame, List.filterMap_replicate_of_some first]

theorem messagesFor_perm (a : SocketAddr) {given given' : List FilterInput} (h : given.Perm given') :
    (messagesFor a given).Perm (messagesFor a given') :=
  List.Perm.flatMap_right _ h

theorem delivered_sublist (a : SocketAddr) (lane : Lane Frame) :
    lane.delivered a <+ (heldFor a lane.net.connections).filterMap NetBincode.deserialize := by
  have taken : lane.delivered a <+ ((lane.net.connectionsTo a).flatMap Connection.written).filterMap NetBincode.deserialize := by
    rw [List.filterMap_flatMap]
    exact List.Sublist.flatMap_right _ fun c _ => (List.take_sublist _ _).filterMap _
  exact taken.trans ((NetSender.written_sublist a _).filterMap _)

/-- Nothing that was sent to an address is on its way, and no connection to it has ended. -/
structure Quiet (lane : Lane Frame) (a : SocketAddr) : Prop where
  filter : lane.pending ++ lane.channel = []
  sender : lane.net.waiting = []
  connections : ∀ c ∈ lane.net.connectionsTo a,
    c.stage ≠ .returned ∧ c.sending = none ∧ c.queue = [] ∧ c.read = c.written.length

theorem Quiet.delivered {a : SocketAddr} (h : lane.Quiet a) :
    lane.delivered a = (heldFor a lane.net.connections).filterMap NetBincode.deserialize := by
  unfold Lane.delivered heldFor
  rw [List.filterMap_flatMap]
  apply List.flatMap_congr
  intro c mem
  obtain ⟨-, sending, queue, read⟩ := h.connections c mem
  simp [Connection.delivered, Connection.held, sending, queue, read]

/-- What is delivered at an address was sent to it, and each message at most as often as it was sent. When the lane is
quiet, and no connection to the address has ended, all of it has been delivered. -/
theorem delivered_once (inputs : List LaneInput) (a : SocketAddr)
    (round : ∀ x ∈ sent inputs, NetBincode.deserialize (NetBincode.serialize x.1 : Frame) = some x.1) :
    List.Subperm ((Lane.new.run inputs : Lane Frame).delivered a) (messagesFor a (sent inputs)) ∧
      ((Lane.new.run inputs : Lane Frame).Quiet a →
        List.Perm ((Lane.new.run inputs : Lane Frame).delivered a) (messagesFor a (sent inputs))) := by
  obtain ⟨handed, all, net⟩ : (Lane.new.run inputs : Lane Frame).Accounts (sent inputs) := accounts_run inputs
  have survive : ∀ x ∈ handed, NetBincode.deserialize (NetBincode.serialize x.1 : Frame) = some x.1 :=
    fun x mem => round x (all.subset (List.mem_append_left _ mem))
  constructor
  · have part : messagesFor a handed <+ messagesFor a (handed ++ ((Lane.new.run inputs : Lane Frame).pending ++
        (Lane.new.run inputs : Lane Frame).channel)) :=
      (List.sublist_append_left _ _).flatMap _
    have read := ((List.sublist_append_left _ _).trans (net.order a)).filterMap
      (NetBincode.deserialize : Frame → Option ConsensusMessage)
    rw [deserialize_frames a survive] at read
    exact (((delivered_sublist a _).trans read).trans part).subperm.trans (messagesFor_perm a all).subperm
  · intro quiet
    have whole := net.kept a fun c mem => (quiet.connections c mem).1
    rw [quiet.sender, show framesFor a ([] : List (NetMessage Frame)) = [] from rfl, List.append_nil] at whole
    rw [quiet.filter, List.append_nil] at all
    rw [quiet.delivered, whole, deserialize_frames a survive]
    exact messagesFor_perm a all

end Lane
end

/-! ## Two messages that change places -/

namespace Sample
open Library.Bytes

/-- How a `TC` without votes is written: the place of its variant, the epoch and the number of votes. -/
instance tcBincode : NetBincode ConsensusMessage (List UInt8) where
  serialize
    | .tc ⟨epoch, []⟩ => [6, 0, 0, 0] ++ (epoch.leBytes ++ leBytes 8 0)
    | _ => []
  deserialize bytes :=
    if bytes.length = 20 ∧ bytes.take 4 = [6, 0, 0, 0] ∧ leNat (bytes.drop 12) = 0 then
      some (.tc ⟨UInt64.ofNat (leNat ((bytes.drop 4).take 8)), []⟩)
    else none

def emptyTc (epoch : SeqNumber) : ConsensusMessage := .tc ⟨epoch, []⟩

/-- The filter lets the later message through first; it is for a second address too, whose connection is not made yet. -/
def overtaking : List LaneInput :=
  [.transmit (emptyTc 0, ["a"]), .transmit (emptyTc 1, ["a", "b"]), .delay, .delay, .ready 1, .ready 0, .net .next, .net .serve,
    .net .serve, .net (.connect 0 true), .net (.recv 0), .net (.send 0 true), .deliver 0, .net .serve, .net .serve, .net .serve,
    .net .next, .net .serve, .net .serve, .net (.recv 0), .net (.send 0 true), .deliver 0]

theorem overtaking_delivered :
    (Lane.new.run overtaking : Lane (List UInt8)).delivered "a" = [emptyTc 1, emptyTc 0] ∧
      List.Perm ((Lane.new.run overtaking : Lane (List UInt8)).delivered "a") (Lane.messagesFor "a" (Lane.sent overtaking)) :=
  ⟨by decide +kernel, (Lane.delivered_once overtaking "a" (by decide +kernel)).2
    ⟨by decide +kernel, by decide +kernel, by decide +kernel⟩⟩

end Sample
end HotstuffDag
