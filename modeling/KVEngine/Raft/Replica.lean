import KVEngine.Raft.Commands
import KVEngine.Raft.Commits
import KVEngine.Store.Sessions

/-!
# Replicated stores

`runRaft` and `applyRaftToStore` of `cmd/kvengine/main.go`: every node applies the
commands its Raft node delivers to a store with a log of its own. Store and node
come back from different files, and the node does not remember what it has
delivered: after a restart the commands arrive again from the first, at a store that
holds them all. While they do, the store is back at older values
(`store_goes_back`).

What is true: in runs with one vote a term, without snapshots and torn frames, in
which a command that arrives again finds its effect in place, the store holds the
state after a prefix of the committed sequence, and the prefix never gets shorter
(`store_advances`).
-/

namespace KVEngine

open Foundation (Dict Run)
open Raft (NodeId Config Cluster Node LogEntry ApplyMsg Event Committed VotesOnce KeepsLoop Takes
  messages messages_append)
open RaftStore (Codec decode)
open Store (Call openStore)
open WAL (encode encodeBody maxBodySize)

/-- A process without its Raft node. -/
structure Replica where
  store : Store
  applyCh : List ApplyMsg
  /-- The message that the loop has received and not yet applied. -/
  current : Option ApplyMsg
  applied : ℕ
  /-- The arguments of the `TakeSnapshot` that the loop is about to call. -/
  snapshot : Option (ℕ × Bytes)
  /-- The highest index applied so far, in this life or before. Nothing reads it. -/
  high : ℕ

namespace Replica

/-! ## §1  Processes -/

/-- The buffer of `applyCh`. -/
def capacity : ℕ := 256

def snapshotEvery : ℕ := 100

/-- A process that begins with this file. -/
def start (file : Bytes) (high : ℕ) : Replica :=
  { store := openStore file, applyCh := [], current := none, applied := 0, snapshot := none, high }

variable (J : Codec)

/-- The call a command makes on the store; it makes none if it cannot be decoded. -/
def callOf (command : Bytes) : Option Call := (decode J command).join

/-- The loop of `applyRaftToStore` receives a message, which frees its place in the
buffer. -/
def receive (r : Replica) : Option Replica :=
  match r.current, r.snapshot, r.applyCh with
  | none, none, msg :: rest => some { r with current := some msg, applyCh := rest }
  | _, _, _ => none

/-- The loop applies what it has received; `snap` is `Snapshot` of the store. -/
def apply (snap : Dict Bytes Bytes → Bytes) (r : Replica) : Option Replica :=
  match r.current with
  | none => none
  | some msg =>
      let high := max r.high msg.commandIndex
      match decode J msg.command with
      | none => some { r with current := none, high }
      | some call =>
          let store := match call with
            | none => r.store
            | some c => r.store.call c
          let applied := r.applied + 1
          some { r with
            store, applied, high, current := none,
            snapshot := if applied % snapshotEvery = 0 then
              some (msg.commandIndex, snap store.data) else none }

/-- The call the loop is making, with its index. -/
def inFlight (r : Replica) : Option (ℕ × Call) :=
  r.current.bind fun msg => (callOf J msg.command).map fun c => (msg.commandIndex, c)

/-- The messages that have been sent and not yet applied. -/
def waiting (r : Replica) : List ApplyMsg := r.current.toList ++ r.applyCh

/-- The process dies and is started again. Of the frame being written `n` bytes
survive. -/
def restart (n : ℕ) (r : Replica) : Replica :=
  match r.inFlight J with
  | none => start r.store.log.file r.high
  | some (k, c) =>
      start ((r.store.log.append c.record).crash n)
        (if (encode c.record).length ≤ n then max r.high k else r.high)

/-- Nodes and the processes around them. -/
structure System where
  cluster : Cluster
  replicas : NodeId → Replica

inductive Action : Type where
  /-- A step of a node alone. -/
  | raft (a : Raft.Action)
  /-- The send on `applyCh` goes through. -/
  | send (i : NodeId)
  | receive (i : NodeId)
  | apply (i : NodeId)
  | snapshot (i : NodeId)
  /-- A process dies, `n` bytes into the frame it is writing. -/
  | kill (a : Raft.Action) (n : ℕ)

namespace System

def initial (cfg : Config) : System :=
  { cluster := Cluster.initial cfg, replicas := fun _ => start [] 0 }

def setReplica (s : System) (i : NodeId) (r : Replica) : System :=
  { s with replicas := Function.update s.replicas i r }

def step (snap : Dict Bytes Bytes → Bytes) (cfg : Config) (s : System) : Action → Option System
  | .raft a => do
      guard (a.leavesNode = false)
      let cluster ← s.cluster.step cfg a
      return { s with cluster }
  | .send i => do
      guard ((s.replicas i).applyCh.length < capacity)
      let cluster ← s.cluster.step cfg (.applySend i)
      return { s with cluster }.setReplica i
        { s.replicas i with applyCh := (s.replicas i).applyCh ++ (s.cluster.nodes i).outgoing }
  | .receive i => do
      let r ← (s.replicas i).receive
      return s.setReplica i r
  | .apply i => do
      let r ← (s.replicas i).apply J snap
      return s.setReplica i r
  | .snapshot i => do
      let (k, data) ← (s.replicas i).snapshot
      let cluster ← s.cluster.step cfg (.takeSnapshot i k data)
      return { s with cluster }.setReplica i { s.replicas i with snapshot := none }
  | .kill a n => do
      let i ← a.victim s.cluster
      let cluster ← s.cluster.step cfg a
      return { s with cluster }.setReplica i ((s.replicas i).restart J n)

end System

/-! ## §2  The state of a prefix -/

/-- What a command does to a map. -/
def effect (m : Dict Bytes Bytes) (command : Bytes) : Dict Bytes Bytes :=
  match callOf J command with
  | none => m
  | some c => c.write.apply m

/-- The map after the commands of the entries; `nil` commands do nothing. -/
def stateAfter (es : List LogEntry) : Dict Bytes Bytes :=
  es.foldl (fun m e => e.command.elim m (effect J m)) ∅

/-- The pair of `A` and `B`, with terms of 64 bits. -/
def duo : Config := { Raft.pair with incr := Raft.incrTerm }

/-- Its steps; every snapshot is `{}`. -/
abbrev duoStep : System → Action → Option System :=
  System.step RaftStore.goJson (fun _ => [123, 125]) duo

def setA (value : Bytes) : Bytes := RaftStore.command RaftStore.goJson (.put [97] value)

/-- `a` is set to `1` and then to `2`; both commands are committed by `A` and
applied by `B`. -/
def caughtUpOps : List Action :=
  [.raft (.startElection [65]), .raft (.deliverVote 0), .raft (.voteReply 0),
   .raft (.propose [65] (some (setA [49]))), .raft (.propose [65] (some (setA [50]))),
   .raft (.deliverAppend 2), .raft (.appendReply 2), .raft (.heartbeat [65]),
   .raft (.deliverAppend 3), .raft (.applyWake [66]), .raft (.applyTake [66]), .send [66],
   .raft (.applyTake [66]), .send [66], .receive [66], .apply [66], .receive [66], .apply [66]]

/-- `B` is restarted, hears from `A` and applies the first command again. -/
def goesBackOps : List Action :=
  [.kill (.crash [66]) 0, .raft (.heartbeat [65]), .raft (.deliverAppend 4),
   .raft (.applyWake [66]), .raft (.applyTake [66]), .send [66], .receive [66], .apply [66]]

def caughtUp : System :=
  Foundation.endState duoStep Foundation.Always (System.initial duo) caughtUpOps

def wentBack : System := Foundation.endState duoStep Foundation.Always caughtUp goesBackOps

/-- The store of `B` holds the state after both commands, and later the state after
the first alone. -/
theorem store_goes_back :
    let es : List LogEntry := [⟨1, some (setA [49])⟩, ⟨1, some (setA [50])⟩]
    Run duoStep Foundation.Always (System.initial duo) caughtUpOps caughtUp ∧
      Event.advanced [65] 1 2 (Raft.sentinel :: es) ∈ caughtUp.cluster.history ∧
      (caughtUp.replicas [66]).store.get [97] = some [50] ∧
      Run duoStep Foundation.Always caughtUp goesBackOps wentBack ∧
      (wentBack.replicas [66]).store.get [97] = some [49] ∧
      ∀ k ≤ 2, ((stateAfter RaftStore.goJson (es.take k)).lookup [97] = some [50] → k = 2) ∧
        ((stateAfter RaftStore.goJson (es.take k)).lookup [97] = some [49] → k = 1) := by
  refine ⟨Foundation.run_endState (by decide +kernel), by decide +kernel, by decide +kernel,
    Foundation.run_endState (by decide +kernel), by decide +kernel, by decide +kernel⟩

/-! ## §3  The condition -/

/-- The call's record is not too long for the log, and if its index has been applied
before, the store already holds what it asks for. -/
def Settled (r : Replica) (k : ℕ) (c : Call) : Prop :=
  (encodeBody c.record).length ≤ maxBodySize ∧
    (k ≤ r.high → r.store.data.lookup c.write.key = c.write.value)

instance (r : Replica) (k : ℕ) (c : Call) : Decidable (r.Settled k c) :=
  inferInstanceAs (Decidable (_ ∧ (_ → _)))

/-- One vote a term and no snapshots; calls are settled, and no crash leaves a part of
a frame. -/
def Steady (cfg : Config) (s : System) : Action → Prop
  | .raft a => VotesOnce cfg s.cluster a
  | .send _ | .receive _ => True
  | .apply i => ∀ p ∈ (s.replicas i).inFlight J, (s.replicas i).Settled p.1 p.2
  | .snapshot _ => False
  | .kill a n => VotesOnce cfg s.cluster a ∧ ∀ i ∈ a.victim s.cluster,
      ∀ p ∈ (s.replicas i).inFlight J,
        n = 0 ∨ (encode p.2.record).length ≤ n ∧ (s.replicas i).Settled p.1 p.2

instance (cfg : Config) (s : System) (a : Action) : Decidable (Steady J cfg s a) :=
  match a with
  | .raft a => inferInstanceAs (Decidable (VotesOnce cfg s.cluster a))
  | .send _ | .receive _ => isTrue trivial
  | .apply i => inferInstanceAs (Decidable (∀ p ∈ (s.replicas i).inFlight J, _))
  | .snapshot _ => isFalse (fun h => h)
  | .kill a _ => inferInstanceAs (Decidable (_ ∧ ∀ i ∈ a.victim s.cluster,
      ∀ p ∈ (s.replicas i).inFlight J, _))

section Steps

variable {J} {snap : Dict Bytes Bytes → Bytes} {cfg : Config} {s s' : System} {r r' : Replica}

/-- What has been received is still waiting. -/
theorem receive_some (h : r.receive = some r') :
    r'.waiting = r.waiting ∧ r'.store = r.store ∧ r'.high = r.high := by
  unfold receive at h
  split at h
  · rename_i msg rest hcur hsnap hch
    cases h
    refine ⟨?_, rfl, rfl⟩
    rw [waiting, waiting, hcur, hch]
    rfl
  · cases h

/-- One pass takes one message and makes its call. -/
theorem apply_some (h : r.apply J snap = some r') : ∃ msg,
    r.waiting = msg :: r'.waiting ∧ r'.high = max r.high msg.commandIndex ∧
    r.inFlight J = (callOf J msg.command).map (fun c => (msg.commandIndex, c)) ∧
    r'.store = (callOf J msg.command).elim r.store r.store.call := by
  unfold apply at h
  split at h
  · cases h
  · rename_i msg hcur
    have hflight : r.inFlight J = (callOf J msg.command).map fun c => (msg.commandIndex, c) := by
      rw [inFlight, hcur]
      rfl
    have hwaiting : r.waiting = msg :: r.applyCh := by
      rw [waiting, hcur]
      rfl
    have hcall : ∀ {o}, decode J msg.command = o → callOf J msg.command = o.join := by
      rintro o rfl
      rfl
    split at h
    · rename_i hdec
      cases h
      refine ⟨msg, hwaiting, rfl, hflight, ?_⟩
      rw [hcall hdec]
      rfl
    · rename_i call hdec
      cases h
      refine ⟨msg, hwaiting, rfl, hflight, ?_⟩
      rw [hcall hdec]
      cases call <;> rfl

/-- A call that is under way is that of the first message waiting. -/
theorem inFlight_some {k : ℕ} {c : Call} (h : r.inFlight J = some (k, c)) :
    ∃ msg, r.waiting = msg :: r.applyCh ∧ msg.commandIndex = k ∧
      callOf J msg.command = some c := by
  obtain ⟨msg, hcur, h⟩ := Option.bind_eq_some_iff.mp h
  obtain ⟨c', hc', heq⟩ := Option.map_eq_some_iff.mp h
  cases heq
  refine ⟨msg, ?_, rfl, hc'⟩
  rw [waiting, hcur]
  rfl

theorem step_raft {a : Raft.Action} (h : s.step J snap cfg (.raft a) = some s') :
    a.leavesNode = false ∧ ∃ cluster, s.cluster.step cfg a = some cluster ∧
      s' = { s with cluster } := by
  obtain ⟨ha, h⟩ := Foundation.guard_bind_eq_some h
  obtain ⟨cluster, hc, h⟩ := Option.bind_eq_some_iff.mp h
  exact ⟨ha, cluster, hc, (Option.some.inj h).symm⟩

theorem step_send {i : NodeId} (h : s.step J snap cfg (.send i) = some s') :
    ∃ cluster, s.cluster.step cfg (.applySend i) = some cluster ∧
      s' = { s with cluster }.setReplica i
        { s.replicas i with
          applyCh := (s.replicas i).applyCh ++ (s.cluster.nodes i).outgoing } := by
  obtain ⟨-, h⟩ := Foundation.guard_bind_eq_some h
  obtain ⟨cluster, hc, h⟩ := Option.bind_eq_some_iff.mp h
  exact ⟨cluster, hc, (Option.some.inj h).symm⟩

theorem step_receive {i : NodeId} (h : s.step J snap cfg (.receive i) = some s') :
    ∃ r, (s.replicas i).receive = some r ∧ s' = s.setReplica i r := by
  obtain ⟨r, hr, h⟩ := Option.bind_eq_some_iff.mp h
  exact ⟨r, hr, (Option.some.inj h).symm⟩

theorem step_apply {i : NodeId} (h : s.step J snap cfg (.apply i) = some s') :
    ∃ r, (s.replicas i).apply J snap = some r ∧ s' = s.setReplica i r := by
  obtain ⟨r, hr, h⟩ := Option.bind_eq_some_iff.mp h
  exact ⟨r, hr, (Option.some.inj h).symm⟩

theorem step_kill {a : Raft.Action} {n : ℕ} (h : s.step J snap cfg (.kill a n) = some s') :
    ∃ i cluster, a.victim s.cluster = some i ∧ s.cluster.step cfg a = some cluster ∧
      s' = { s with cluster }.setReplica i ((s.replicas i).restart J n) := by
  obtain ⟨i, hi, h⟩ := Option.bind_eq_some_iff.mp h
  obtain ⟨cluster, hc, h⟩ := Option.bind_eq_some_iff.mp h
  exact ⟨i, cluster, hi, hc, (Option.some.inj h).symm⟩

/-- A step of the system is at most one step of the cluster. -/
theorem cluster_step {a : Action} (hC : Steady J cfg s a) (h : s.step J snap cfg a = some s') :
    s'.cluster = s.cluster ∨
      ∃ b, VotesOnce cfg s.cluster b ∧ s.cluster.step cfg b = some s'.cluster := by
  cases a with
  | raft a =>
      obtain ⟨-, cluster, hc, rfl⟩ := step_raft h
      exact Or.inr ⟨a, hC, hc⟩
  | send i =>
      obtain ⟨cluster, hc, rfl⟩ := step_send h
      exact Or.inr ⟨.applySend i, ⟨trivial, trivial⟩, hc⟩
  | receive i =>
      obtain ⟨r, -, rfl⟩ := step_receive h
      exact Or.inl rfl
  | apply i =>
      obtain ⟨r, -, rfl⟩ := step_apply h
      exact Or.inl rfl
  | snapshot i => exact hC.elim
  | kill a n =>
      obtain ⟨i, cluster, -, hc, rfl⟩ := step_kill h
      exact Or.inr ⟨a, hC.1, hc⟩

theorem cluster_run {as : List Action} (h : Run (System.step J snap cfg) (Steady J cfg) s as s') :
    ∃ bs, Run (Cluster.step cfg) (VotesOnce cfg) s.cluster bs s'.cluster :=
  h.project System.cluster (I := fun _ => True) trivial
    fun _ hC hs => ⟨trivial, cluster_step hC hs⟩

end Steps

/-! ## §4  Prefixes of the committed sequence -/

/-- The entries are the first of the committed sequence. -/
def CommittedPrefix (H : List Event) (es : List LogEntry) : Prop :=
  ∀ (k : ℕ) (e : LogEntry), es[k]? = some e → Committed H (k + 1) e

/-- Indices have one committed entry at most. -/
def Agrees (H : List Event) : Prop := ∀ k x y, Committed H k x → Committed H k y → x = y

section Prefixes

variable {J} {H H' : List Event} {es fs : List LogEntry}

theorem CommittedPrefix.mono (hH : H ⊆ H') (h : CommittedPrefix H es) : CommittedPrefix H' es :=
  fun k e he => (h k e he).mono hH

theorem CommittedPrefix.anti (h : CommittedPrefix H fs) (hpre : es <+: fs) :
    CommittedPrefix H es :=
  fun k e he => h k e (Foundation.prefix_getElem? hpre he)

theorem CommittedPrefix.snoc (h : CommittedPrefix H es) {e : LogEntry}
    (he : Committed H (es.length + 1) e) : CommittedPrefix H (es ++ [e]) := by
  intro k x hx
  rcases Nat.lt_trichotomy k es.length with hk | rfl | hk
  · rw [List.getElem?_append_left hk] at hx
    exact h k x hx
  · rw [List.getElem?_concat_length] at hx
    exact Option.some.inj hx ▸ he
  · rw [List.getElem?_eq_none (by simpa using hk)] at hx
    cases hx

/-- Of two prefixes the shorter is a prefix of the longer. -/
theorem CommittedPrefix.isPrefix (hagree : Agrees H) (hes : CommittedPrefix H es)
    (hfs : CommittedPrefix H fs) (hlen : es.length ≤ fs.length) : es <+: fs := by
  rw [List.prefix_iff_eq_take]
  apply List.ext_getElem?
  intro k
  by_cases hk : k < es.length
  · rw [List.getElem?_take_of_lt hk, List.getElem?_eq_getElem hk,
      List.getElem?_eq_getElem (hk.trans_le hlen)]
    exact congrArg some (hagree _ _ _ (hes k _ (List.getElem?_eq_getElem hk))
      (hfs k _ (List.getElem?_eq_getElem (hk.trans_le hlen))))
  · rw [List.getElem?_eq_none (not_lt.mp hk), List.getElem?_take, if_neg hk]

/-- Up to the first message all commands are `nil`. -/
theorem messages_cons {k : ℕ} {msg : ApplyMsg} {ms : List ApplyMsg}
    (h : messages k es = msg :: ms) : ∃ skipped e rest, es = skipped ++ e :: rest ∧
      (∀ x ∈ skipped, x.command = none) ∧ e.command = some msg.command ∧
      msg.commandIndex = k + skipped.length + 1 ∧ ms = messages (k + skipped.length + 1) rest := by
  induction es generalizing k with
  | nil => cases h
  | cons e es ih =>
      rw [messages, LogEntry.message] at h
      cases hc : e.command with
      | none =>
          rw [hc] at h
          obtain ⟨skipped, e', rest, rfl, hnil, hcmd, hidx, hms⟩ := ih h
          refine ⟨e :: skipped, e', rest, rfl, ?_, hcmd, ?_, ?_⟩
          · intro x hx
            rcases List.mem_cons.mp hx with rfl | hx
            · exact hc
            · exact hnil x hx
          · rw [hidx, List.length_cons]
            omega
          · rw [hms, List.length_cons, Nat.add_right_comm k]
            rfl
      | some c =>
          rw [hc] at h
          obtain ⟨rfl, rfl⟩ := List.cons.inj h
          exact ⟨[], e, es, rfl, by simp, hc, rfl, rfl⟩

theorem stateAfter_append (es fs : List LogEntry) : stateAfter J (es ++ fs) =
    fs.foldl (fun m e => e.command.elim m (effect J m)) (stateAfter J es) :=
  List.foldl_append

theorem foldl_nil_commands {m : Dict Bytes Bytes} (h : ∀ e ∈ es, e.command = none) :
    es.foldl (fun m e => e.command.elim m (effect J m)) m = m := by
  induction es with
  | nil => rfl
  | cons e es ih =>
      rw [List.foldl_cons, h e List.mem_cons_self]
      exact ih fun x hx => h x (List.mem_cons_of_mem e hx)

/-- **The next command.** From the state of a prefix `es` that reaches into the `nil`
commands before `e`, the command of `e` leads to the state up to `e`. -/
theorem stateAfter_next {pre skipped : List LogEntry} {e : LogEntry} {command : Bytes}
    (hes : es <+: pre ++ skipped ++ [e]) (hlo : pre.length ≤ es.length)
    (hhi : es.length ≤ pre.length + skipped.length) (hnil : ∀ x ∈ skipped, x.command = none)
    (hcmd : e.command = some command) :
    stateAfter J (pre ++ skipped ++ [e]) = effect J (stateAfter J es) command := by
  obtain ⟨rest, hrest⟩ := hes
  have hdrop : rest = skipped.drop (es.length - pre.length) ++ [e] := by
    have := congrArg (List.drop es.length) hrest
    rw [List.drop_left, List.append_assoc, List.drop_append, List.drop_eq_nil_of_le hlo,
      List.nil_append, List.drop_append_of_le_length (by omega)] at this
    exact this
  rw [← hrest, stateAfter_append, hdrop, List.foldl_append,
    foldl_nil_commands fun x hx => hnil x (List.mem_of_mem_drop hx), List.foldl_cons, hcmd]
  rfl

end Prefixes

/-! ## §5  Stores advance -/

/-- The store holds the state after the first `high` committed entries. The messages
on their way are those for the entries between some index at most `high`, the last
that this life has handed to the store, and `lastApplied`. -/
structure Coherent (H : List Event) (n : Node) (r : Replica) : Prop where
  intact : r.store.Intact
  state : ∃ es, es.length = r.high ∧ CommittedPrefix H es ∧ r.store.data = stateAfter J es
  queue : ∃ pre post, pre.length ≤ r.high ∧ CommittedPrefix H (pre ++ post) ∧
    (pre ++ post).length = n.lastApplied ∧ r.waiting ++ n.outgoing = messages pre.length post

namespace Coherent

variable {J} {H H' : List Event} {n n' : Node} {r r' : Replica}

theorem keeps (h : Coherent J H n r) (hH : H ⊆ H') (hn : KeepsLoop n n') : Coherent J H' n' r := by
  obtain ⟨hintact, ⟨es, hlen, hes, hdata⟩, pre, post, hpre, hcom, hlast, hqueue⟩ := h
  refine ⟨hintact, ⟨es, hlen, hes.mono hH, hdata⟩, pre, post, hpre, hcom.mono hH, ?_, ?_⟩
  · rw [hn.1, hlast]
  · rw [hn.2, hqueue]

/-- The loop takes an entry that is committed. -/
theorem takes (h : Coherent J H n r) (hH : H ⊆ H') (hn : Takes n n')
    (hcom : ∀ e, n.log[n.lastApplied + 1]? = some e → n.lastApplied < n.commitIndex →
      Committed H (n.lastApplied + 1) e) : Coherent J H' n' r := by
  obtain ⟨hintact, ⟨es, hlen, hes, hdata⟩, pre, post, hpre, hpost, hlast, hqueue⟩ := h
  obtain ⟨e, hlt, he, hout, hlast', hout'⟩ := hn
  refine ⟨hintact, ⟨es, hlen, hes.mono hH, hdata⟩, pre, post ++ [e], hpre, ?_, ?_, ?_⟩
  · rw [← List.append_assoc]
    refine (hpost.snoc ?_).mono hH
    rw [hlast]
    exact hcom e he hlt
  · rw [← List.append_assoc, List.length_append, hlast, hlast']
    rfl
  · rw [hout, List.append_nil] at hqueue
    rw [List.length_append] at hlast
    rw [hout', messages_append, hqueue, hlast]
    show _ = _ ++ (e.message (n.lastApplied + 1) ++ [])
    rw [List.append_nil]

/-- The message taken goes onto the channel. -/
theorem sent (h : Coherent J H n r) (hH : H ⊆ H') (hlast : n'.lastApplied = n.lastApplied)
    (hout : n'.outgoing = []) :
    Coherent J H' n' { r with applyCh := r.applyCh ++ n.outgoing } := by
  obtain ⟨hintact, ⟨es, hlen, hes, hdata⟩, pre, post, hpre, hcom, hlast', hqueue⟩ := h
  refine ⟨hintact, ⟨es, hlen, hes.mono hH, hdata⟩, pre, post, hpre, hcom.mono hH, ?_, ?_⟩
  · rw [hlast, hlast']
  · rw [hout, List.append_nil, ← hqueue]
    exact (List.append_assoc _ _ _).symm

theorem received (h : Coherent J H n r) (hr : r.receive = some r') : Coherent J H n r' := by
  obtain ⟨hwaiting, hstore, hhigh⟩ := receive_some hr
  obtain ⟨hintact, hstate, hqueue⟩ := h
  rw [← hhigh, ← hstore] at hstate
  rw [← hhigh, ← hwaiting] at hqueue
  exact ⟨hstore ▸ hintact, hstate, hqueue⟩

/-- **One command.** The next message brings the state of the prefix to its own index,
or finds it further on and changes nothing. -/
theorem next (h : Coherent J H n r) (hagree : Agrees H) {msg : ApplyMsg} {rest : List ApplyMsg}
    (hch : r.waiting = msg :: rest)
    (hagain : ∀ c, callOf J msg.command = some c → msg.commandIndex ≤ r.high →
      r.store.data.lookup c.write.key = c.write.value) :
    (∃ es, es.length = max r.high msg.commandIndex ∧ CommittedPrefix H es ∧
      effect J r.store.data msg.command = stateAfter J es) ∧
    ∃ pre post, pre.length = msg.commandIndex ∧ CommittedPrefix H (pre ++ post) ∧
      (pre ++ post).length = n.lastApplied ∧ rest ++ n.outgoing = messages pre.length post := by
  obtain ⟨-, ⟨es, hlen, hes, hdata⟩, pre, post, hpre, hcom, hlast, hqueue⟩ := h
  rw [hch, List.cons_append] at hqueue
  obtain ⟨skipped, e, post', rfl, hnil, hcmd, hidx, hms⟩ := messages_cons hqueue.symm
  have hsplit : pre ++ (skipped ++ e :: post') = (pre ++ skipped ++ [e]) ++ post' := by
    simp
  have hlength : (pre ++ skipped ++ [e]).length = msg.commandIndex := by
    rw [hidx, List.length_append, List.length_append]
    rfl
  rw [hsplit] at hcom hlast
  refine ⟨?_, pre ++ skipped ++ [e], post', hlength, hcom, hlast, ?_⟩
  · by_cases hle : msg.commandIndex ≤ r.high
    · refine ⟨es, by rw [hlen, max_eq_left hle], hes, ?_⟩
      rw [← hdata]
      unfold effect
      cases hcall : callOf J msg.command with
      | none => rfl
      | some c => exact Foundation.Write.apply_eq_self (hagain c hcall hle)
    · have hto := hcom.anti (List.prefix_append _ _)
      refine ⟨pre ++ skipped ++ [e], ?_, hto, ?_⟩
      · rw [hlength, max_eq_right (not_le.mp hle).le]
      · rw [hdata]
        refine (stateAfter_next (hes.isPrefix hagree hto ?_) ?_ ?_ hnil hcmd).symm
        · rw [hlen, hlength]
          exact (not_le.mp hle).le
        · rw [hlen]
          exact hpre
        · omega
  · rw [hms, hlength, hidx]

theorem applied {snap : Dict Bytes Bytes → Bytes} (h : Coherent J H n r) (hagree : Agrees H)
    (hr : r.apply J snap = some r')
    (hsettled : ∀ p ∈ r.inFlight J, r.Settled p.1 p.2) : Coherent J H n r' := by
  obtain ⟨msg, hch, hhigh, hflight, hstore⟩ := apply_some hr
  have hcall : ∀ c, callOf J msg.command = some c → r.Settled msg.commandIndex c := by
    intro c hc
    rw [hflight, hc] at hsettled
    exact hsettled (msg.commandIndex, c) rfl
  obtain ⟨⟨es, hlen, hes, hdata⟩, pre, post, hpre, hcom, hlast, hqueue⟩ :=
    h.next hagree hch fun c hc => (hcall c hc).2
  refine ⟨?_, ⟨es, hlen.trans hhigh.symm, hes, ?_⟩, pre, post, ?_, hcom, hlast, hqueue⟩
  · rw [hstore]
    cases hc : callOf J msg.command with
    | none => exact h.intact
    | some c => exact h.intact.call (hcall c hc).1
  · rw [← hdata, hstore]
    unfold effect
    cases callOf J msg.command with
    | none => rfl
    | some c => exact Store.call_data r.store c
  · rw [hpre, hhigh]
    exact le_max_right _ _

/-- A new process: whatever it holds, nothing is on its way. -/
theorem started {file : Bytes} {high : ℕ} (hintact : (openStore file).Intact)
    (hstate : ∃ es, es.length = high ∧ CommittedPrefix H es ∧
      (openStore file).data = stateAfter J es)
    (hlast : n'.lastApplied = 0) (hout : n'.outgoing = []) :
    Coherent J H n' (start file high) := by
  refine ⟨hintact, hstate, [], [], Nat.zero_le _, ?_, hlast.symm, hout⟩
  intro k e he
  cases he

theorem restarted {k : ℕ} (h : Coherent J H n r) (hagree : Agrees H)
    (hclean : ∀ p ∈ r.inFlight J,
      k = 0 ∨ (encode p.2.record).length ≤ k ∧ r.Settled p.1 p.2)
    (hlast : n'.lastApplied = 0) (hout : n'.outgoing = []) :
    Coherent J H n' (r.restart J k) := by
  obtain ⟨es, hlen, hes, hdata⟩ := h.state
  obtain ⟨hopen, hsame⟩ := h.intact.reopen
  rw [restart]
  cases hflight : r.inFlight J with
  | none => exact started hopen ⟨es, hlen, hes, hsame.trans hdata⟩ hlast hout
  | some p =>
      obtain ⟨idx, c⟩ := p
      dsimp only
      rcases hclean _ hflight with rfl | ⟨hwhole, hsettled⟩
      · -- nothing of the frame survives
        have hpos : ¬ (encode c.record).length ≤ 0 := by
          rw [WAL.length_encode]
          omega
        have hfile : (r.store.log.append c.record).crash 0 = r.store.log.file :=
          List.append_nil _
        rw [if_neg hpos, hfile]
        exact started hopen ⟨es, hlen, hes, hsame.trans hdata⟩ hlast hout
      · -- the whole frame survives, and the call counts
        obtain ⟨hopen, hcalled⟩ := h.intact.reopen_call hsettled.1 hwhole
        rw [if_pos hwhole]
        refine started hopen ?_ hlast hout
        obtain ⟨msg, hwaiting, rfl, hc⟩ := inFlight_some hflight
        obtain ⟨⟨es', hlen', hes', hdata'⟩, -⟩ := h.next hagree hwaiting fun d hd => by
          rw [hc] at hd
          cases hd
          exact hsettled.2
        refine ⟨es', hlen', hes', ?_⟩
        rw [hcalled, ← hdata', Store.call_data]
        unfold effect
        rw [hc]

end Coherent

/-- Stores and nodes of all processes fit together. -/
def AllCoherent (s : System) : Prop :=
  ∀ i, Coherent J s.cluster.history (s.cluster.nodes i) (s.replicas i)

section Runs

variable {J} {snap : Dict Bytes Bytes → Bytes} {cfg : Config} {s s' : System} {as : List Action}

theorem coherent_set {cluster : Cluster} {i : NodeId} {r : Replica}
    (hi : Coherent J cluster.history (cluster.nodes i) r)
    (hother : ∀ j, j ≠ i → Coherent J cluster.history (cluster.nodes j) (s.replicas j)) :
    AllCoherent J ({ s with cluster }.setReplica i r) :=
  (Function.forall_update_iff s.replicas
    fun j => Coherent J cluster.history (cluster.nodes j)).mpr ⟨hi, hother⟩

theorem coherent_step {a : Action} (hw : Raft.Wired cfg s.cluster)
    (hcom : ∀ (i : NodeId) (k : ℕ) (e : LogEntry), 0 < k → k ≤ (s.cluster.nodes i).commitIndex →
      (s.cluster.nodes i).log[k]? = some e → Committed s.cluster.history k e)
    (hagree : Agrees s.cluster.history) (h : AllCoherent J s) (hC : Steady J cfg s a)
    (hs : s.step J snap cfg a = some s') : AllCoherent J s' := by
  cases a with
  | raft a =>
      obtain ⟨ha, cluster, hc, rfl⟩ := step_raft hs
      intro j
      have hH := Raft.history_mono hc
      rcases Raft.loop_step ha hc j with hkeeps | htakes
      · exact (h j).keeps hH hkeeps
      · exact (h j).takes hH htakes fun e he hlt => hcom j _ e (Nat.succ_pos _) hlt he
  | send i =>
      obtain ⟨cluster, hc, rfl⟩ := step_send hs
      have hH := Raft.history_mono hc
      obtain ⟨msg, -, rfl⟩ := Cluster.applySend_some hc
      refine coherent_set ((h i).sent hH ?_ ?_) fun j hj => (h j).keeps hH ?_
      · show (Function.update s.cluster.nodes i _ i).lastApplied = _
        rw [Function.update_self]
      · show (Function.update s.cluster.nodes i _ i).outgoing = _
        rw [Function.update_self]
        rfl
      · show KeepsLoop _ (Function.update s.cluster.nodes i _ j)
        rw [Function.update_of_ne hj]
        exact ⟨rfl, rfl⟩
  | receive i =>
      obtain ⟨r, hr, rfl⟩ := step_receive hs
      exact coherent_set ((h i).received hr) fun j _ => h j
  | apply i =>
      obtain ⟨r, hr, rfl⟩ := step_apply hs
      exact coherent_set ((h i).applied hagree hr hC) fun j _ => h j
  | snapshot i => exact hC.elim
  | kill a n =>
      obtain ⟨i, cluster, hv, hc, rfl⟩ := step_kill hs
      obtain ⟨hH, hlast, hout, hother⟩ := Raft.loop_victim hw hv hc
      refine coherent_set ?_ fun j hj => ?_
      · rw [hH]
        exact (h i).restarted hagree (hC.2 i hv) hlast hout
      · rw [hH, hother j hj]
        exact h j

theorem agrees_run
    (h : Run (System.step J snap cfg) (Steady J cfg) (System.initial cfg) as s) :
    Agrees s.cluster.history := by
  obtain ⟨bs, hbs⟩ := cluster_run h
  obtain ⟨-, A, hi, habs⟩ := Raft.protocol_run hbs
  exact fun k x y hx hy => hx.agree hi habs hy

theorem coherent_run
    (h : Run (System.step J snap cfg) (Steady J cfg) (System.initial cfg) as s) :
    AllCoherent J s := by
  induction h with
  | nil =>
      intro i
      refine Coherent.started Store.intact_open_nil ⟨[], rfl, ?_, rfl⟩ rfl rfl
      intro k e he
      cases he
  | snoc hrun hC hs ih =>
      obtain ⟨bs, hbs⟩ := cluster_run hrun
      obtain ⟨hw, A, hi, habs⟩ := Raft.protocol_run hbs
      exact coherent_step hw
        (fun i k e hpos hk he => Raft.committed_of_le hi habs (Raft.backed_run hbs) hpos hk he)
        (agrees_run hrun) ih hC hs

theorem high_le_apply {r r' : Replica} (h : r.apply J snap = some r') : r.high ≤ r'.high := by
  obtain ⟨msg, -, hhigh, -, -⟩ := apply_some h
  rw [hhigh]
  exact le_max_left _ _

theorem high_le_restart (n : ℕ) (r : Replica) : r.high ≤ (r.restart J n).high := by
  unfold restart
  split
  · exact le_refl _
  · show r.high ≤ if _ then _ else _
    split
    · exact le_max_left _ _
    · exact le_refl _

/-- No step shortens a prefix. -/
theorem high_le_step {a : Action} (hs : s.step J snap cfg a = some s') (i : NodeId) :
    (s.replicas i).high ≤ (s'.replicas i).high := by
  have hset : ∀ {cluster : Cluster} {j : NodeId} {r : Replica}, (s.replicas j).high ≤ r.high →
      (s.replicas i).high ≤ (({ s with cluster }.setReplica j r).replicas i).high := by
    intro cluster j r hr
    exact (Function.forall_update_iff s.replicas
      fun k r => (s.replicas k).high ≤ r.high).mpr ⟨hr, fun _ _ => le_refl _⟩ i
  cases a with
  | raft a =>
      obtain ⟨-, cluster, -, rfl⟩ := step_raft hs
      exact le_refl _
  | send j =>
      obtain ⟨cluster, -, rfl⟩ := step_send hs
      exact hset (le_refl _)
  | receive j =>
      obtain ⟨r, hr, rfl⟩ := step_receive hs
      exact hset (receive_some hr).2.2.ge
  | apply j =>
      obtain ⟨r, hr, rfl⟩ := step_apply hs
      exact hset (high_le_apply hr)
  | snapshot j =>
      obtain ⟨⟨k, data⟩, -, hs⟩ := Option.bind_eq_some_iff.mp hs
      obtain ⟨cluster, -, hs⟩ := Option.bind_eq_some_iff.mp hs
      cases hs
      exact hset (le_refl _)
  | kill a n =>
      obtain ⟨j, cluster, -, -, rfl⟩ := step_kill hs
      exact hset (high_le_restart n _)

/-- **The store never goes back.** At every moment of such a run the map of every node
is the state after the first `high` entries of the committed sequence, and whatever
follows, crashes included, `high` does not get smaller. -/
theorem store_advances
    (h : Run (System.step J snap cfg) (Steady J cfg) (System.initial cfg) as s) (i : NodeId) :
    Agrees s.cluster.history ∧
      (∃ es, es.length = (s.replicas i).high ∧ CommittedPrefix s.cluster.history es ∧
        (s.replicas i).store.data = stateAfter J es) ∧
      ∀ bs t, Run (System.step J snap cfg) (Steady J cfg) s bs t →
        (s.replicas i).high ≤ (t.replicas i).high := by
  refine ⟨agrees_run h, (coherent_run h i).state, fun bs t hrun => ?_⟩
  exact hrun.invariant (I := fun u => (s.replicas i).high ≤ (u.replicas i).high) (le_refl _)
    fun hle _ hs => hle.trans (high_le_step hs i)

/-- Commands for two keys: `B` applies the first again after a restart and then the
second for the first time. -/
def steadyOps : List Action :=
  [.raft (.startElection [65]), .raft (.deliverVote 0), .raft (.voteReply 0),
   .raft (.propose [65] (some (setA [49]))),
   .raft (.propose [65] (some (RaftStore.command RaftStore.goJson (.put [98] [50])))),
   .raft (.deliverAppend 2), .raft (.appendReply 2), .raft (.heartbeat [65]),
   .raft (.deliverAppend 3), .raft (.applyWake [66]), .raft (.applyTake [66]), .send [66],
   .receive [66], .apply [66], .kill (.crash [66]) 0, .raft (.heartbeat [65]),
   .raft (.deliverAppend 4), .raft (.applyWake [66]), .raft (.applyTake [66]), .send [66],
   .receive [66], .apply [66], .raft (.applyTake [66]), .send [66], .receive [66], .apply [66]]

def steadyEnd : System :=
  Foundation.endState duoStep (Steady RaftStore.goJson duo) (System.initial duo) steadyOps

theorem store_advances_restarted :
    (steadyEnd.replicas [66]).high = 2 ∧ (steadyEnd.replicas [66]).store.get [98] = some [50] ∧
      ∃ es, es.length = (steadyEnd.replicas [66]).high ∧
        CommittedPrefix steadyEnd.cluster.history es ∧
        (steadyEnd.replicas [66]).store.data = stateAfter RaftStore.goJson es := by
  have hrun : Run duoStep (Steady RaftStore.goJson duo) (System.initial duo) steadyOps steadyEnd :=
    Foundation.run_endState (by decide +kernel)
  obtain ⟨-, hstate, -⟩ := store_advances hrun [66]
  refine ⟨?_, ?_, hstate⟩
  · decide +kernel
  · decide +kernel

end Runs

end Replica

end KVEngine
