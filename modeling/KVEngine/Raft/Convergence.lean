import KVEngine.Raft.Replica

/-!
# Replicas converge

The map of a restarted node goes back in time while the commands arrive again
(`store_goes_back`), and a second restart in the middle mixes it further. Two
things are true nevertheless, in every run with one vote a term and without snapshots and torn
frames (`replicas_converge`).

What a node answers for a key is always the key's value after some beginning of the
committed sequence: nothing uncommitted is ever read. And a node that has applied as
far as it ever had, and has nothing waiting, holds exactly the state of the entries it
has applied; so two such nodes at the same index hold the same map.
-/

namespace KVEngine.Replica

open Foundation (Dict Run Write applyAll Replayed)
open Raft (NodeId Config Cluster Node LogEntry ApplyMsg Event Committed VotesOnce KeepsLoop Takes
  messages messages_append)
open RaftStore (Codec)
open Store (Call openStore)
open WAL (encode encodeBody maxBodySize)

variable (J : Codec)

/-! ## §1  The writes of a log -/

/-- What an entry writes, if anything. -/
def writesOf (e : LogEntry) : List (Write Bytes Bytes) :=
  ((e.command.bind (callOf J)).map Call.write).toList

def writes (es : List LogEntry) : List (Write Bytes Bytes) := es.flatMap (writesOf J)

variable {J}

theorem writes_append (es fs : List LogEntry) : writes J (es ++ fs) = writes J es ++ writes J fs :=
  List.flatMap_append

theorem writes_mono {es fs : List LogEntry} (h : es <+: fs) : writes J es <+: writes J fs := by
  obtain ⟨gs, rfl⟩ := h
  rw [writes_append]
  exact List.prefix_append _ _

theorem writes_of_nil {es : List LogEntry} (h : ∀ e ∈ es, e.command = none) : writes J es = [] := by
  rw [writes, List.flatMap_eq_nil_iff]
  intro e he
  simp [writesOf, h e he]

theorem apply_writesOf (m : Dict Bytes Bytes) (e : LogEntry) :
    applyAll m (writesOf J e) = e.command.elim m (effect J m) := by
  cases hc : e.command with
  | none => simp [writesOf, hc, applyAll]
  | some command =>
      cases hcall : callOf J command with
      | none => simp [writesOf, hc, hcall, effect, applyAll]
      | some c => simp [writesOf, hc, hcall, effect, applyAll]

theorem stateAfter_eq (es : List LogEntry) : stateAfter J es = applyAll ∅ (writes J es) := by
  induction es using List.reverseRecOn with
  | nil => rfl
  | append_singleton es e ih =>
      have hone : writes J [e] = writesOf J e := by simp [writes]
      rw [stateAfter_append, writes_append, Foundation.applyAll_append, ← ih, hone, apply_writesOf]
      rfl

/-- A beginning of the writes is what a beginning of the entries writes. -/
theorem exists_prefix_of_writes {es : List LogEntry} {vs : List (Write Bytes Bytes)}
    (h : vs <+: writes J es) : ∃ fs, fs <+: es ∧ writes J fs = vs := by
  induction es using List.reverseRecOn with
  | nil => exact ⟨[], List.prefix_rfl, (List.prefix_nil.mp h).symm⟩
  | append_singleton es e ih =>
      have hone : writes J (es ++ [e]) = writes J es ++ writesOf J e := by
        simp [writes]
      by_cases hshort : vs <+: writes J es
      · obtain ⟨fs, hfs, hwrites⟩ := ih hshort
        exact ⟨fs, hfs.trans (List.prefix_append _ _), hwrites⟩
      · -- an entry writes at most once
        refine ⟨es ++ [e], List.prefix_rfl, ?_⟩
        rw [hone] at h ⊢
        unfold writesOf at h ⊢
        cases hcall : e.command.bind (callOf J) with
        | none =>
            rw [hcall] at h
            exact absurd (by simpa using h) hshort
        | some c =>
            rw [hcall] at h
            rcases List.prefix_concat_iff.mp h with hall | hpart
            · exact hall.symm
            · exact absurd hpart hshort

/-! ## §2  The condition -/

variable (J)

/-- One vote a term and no snapshots; records fit the log, and no crash leaves a part
of a frame. Commands may come again in any state. -/
def Whole (cfg : Config) (s : System) : Action → Prop
  | .raft a => VotesOnce cfg s.cluster a
  | .send _ | .receive _ => True
  | .apply i => ∀ p ∈ (s.replicas i).inFlight J, (encodeBody p.2.record).length ≤ maxBodySize
  | .snapshot _ => False
  | .kill a n => VotesOnce cfg s.cluster a ∧ ∀ i ∈ a.victim s.cluster,
      ∀ p ∈ (s.replicas i).inFlight J,
        n = 0 ∨ (encode p.2.record).length ≤ n ∧ (encodeBody p.2.record).length ≤ maxBodySize

instance decidableWhole (cfg : Config) (s : System) (a : Action) : Decidable (Whole J cfg s a) :=
  match a with
  | .raft a => inferInstanceAs (Decidable (VotesOnce cfg s.cluster a))
  | .send _ | .receive _ => isTrue trivial
  | .apply i => inferInstanceAs (Decidable (∀ p ∈ (s.replicas i).inFlight J, _))
  | .snapshot _ => isFalse (fun h => h)
  | .kill a _ => inferInstanceAs (Decidable (_ ∧ ∀ i ∈ a.victim s.cluster,
      ∀ p ∈ (s.replicas i).inFlight J, _))

variable {J} {snap : Dict Bytes Bytes → Bytes} {cfg : Config} {s s' : System} {as : List Action}

theorem whole_cluster_step {a : Action} (hC : Whole J cfg s a)
    (h : s.step J snap cfg a = some s') :
    s'.cluster = s.cluster ∨
      ∃ b, VotesOnce cfg s.cluster b ∧ s.cluster.step cfg b = some s'.cluster := by
  cases a with
  | raft a =>
      obtain ⟨-, cluster, hc, rfl⟩ := step_raft h
      exact Or.inr ⟨a, hC, hc⟩
  | send i =>
      obtain ⟨cluster, hc, rfl⟩ := step_send h
      exact Or.inr ⟨.applySend i, ⟨trivial, trivial⟩, hc⟩
  | receive i =>
      obtain ⟨r, -, rfl⟩ := step_receive h
      exact Or.inl rfl
  | apply i =>
      obtain ⟨r, -, rfl⟩ := step_apply h
      exact Or.inl rfl
  | snapshot i => exact hC.elim
  | kill a n =>
      obtain ⟨i, cluster, -, hc, rfl⟩ := step_kill h
      exact Or.inr ⟨a, hC.1, hc⟩

theorem whole_cluster_run
    (h : Run (System.step J snap cfg) (Whole J cfg) (System.initial cfg) as s) :
    ∃ bs, Run (Cluster.step cfg) (VotesOnce cfg) (Cluster.initial cfg) bs s.cluster :=
  h.project System.cluster (I := fun _ => True) trivial
    fun _ hC hs => ⟨trivial, whole_cluster_step hC hs⟩

theorem whole_agrees (h : Run (System.step J snap cfg) (Whole J cfg) (System.initial cfg) as s) :
    Agrees s.cluster.history := by
  obtain ⟨bs, hbs⟩ := whole_cluster_run h
  obtain ⟨-, A, hi, habs⟩ := Raft.protocol_run hbs
  exact fun k x y hx hy => hx.agree hi habs hy

/-! ## §3  What is on its way -/

/-- In this life the store has been handed the entries `pre`; the messages for `post`
are on their way. -/
structure Queued (H : List Event) (n : Node) (r : Replica) (pre post : List LogEntry) : Prop where
  committed : CommittedPrefix H (pre ++ post)
  last : (pre ++ post).length = n.lastApplied
  queue : r.waiting ++ n.outgoing = messages pre.length post

section Queue

variable {H H' : List Event} {n n' : Node} {r r' : Replica} {pre post es fs : List LogEntry}

theorem committedPrefix_nil (H : List Event) : CommittedPrefix H [] := by
  intro k e he
  cases he

/-- Of two beginnings the longer extends both. -/
theorem CommittedPrefix.exists_longer (hagree : Agrees H) (hes : CommittedPrefix H es)
    (hfs : CommittedPrefix H fs) :
    ∃ gs, CommittedPrefix H gs ∧ es <+: gs ∧ fs <+: gs ∧
      gs.length = max es.length fs.length := by
  rcases le_total es.length fs.length with hle | hle
  · exact ⟨fs, hfs, hes.isPrefix hagree hfs hle, List.prefix_rfl, (max_eq_right hle).symm⟩
  · exact ⟨es, hes, List.prefix_rfl, hfs.isPrefix hagree hes hle, (max_eq_left hle).symm⟩

namespace Queued

theorem keeps (h : Queued H n r pre post) (hH : H ⊆ H') (hn : KeepsLoop n n') :
    Queued H' n' r pre post := by
  refine ⟨h.committed.mono hH, ?_, ?_⟩
  · rw [hn.1, h.last]
  · rw [hn.2, h.queue]

theorem takes (h : Queued H n r pre post) (hH : H ⊆ H') (hn : Takes n n')
    (hcom : ∀ e, n.log[n.lastApplied + 1]? = some e → n.lastApplied < n.commitIndex →
      Committed H (n.lastApplied + 1) e) : ∃ e, Queued H' n' r pre (post ++ [e]) := by
  obtain ⟨e, hlt, he, hout, hlast', hout'⟩ := hn
  have hlast := h.last
  have hqueue := h.queue
  refine ⟨e, ?_, ?_, ?_⟩
  · rw [← List.append_assoc]
    refine (h.committed.snoc ?_).mono hH
    rw [hlast]
    exact hcom e he hlt
  · rw [← List.append_assoc, List.length_append, hlast, hlast']
    rfl
  · rw [hout, List.append_nil] at hqueue
    rw [List.length_append] at hlast
    rw [hout', messages_append, hqueue, hlast]
    simp [messages]

theorem sent (h : Queued H n r pre post) (hH : H ⊆ H') (hlast : n'.lastApplied = n.lastApplied)
    (hout : n'.outgoing = []) :
    Queued H' n' { r with applyCh := r.applyCh ++ n.outgoing } pre post := by
  refine ⟨h.committed.mono hH, ?_, ?_⟩
  · rw [hlast, h.last]
  · rw [hout, List.append_nil, ← h.queue]
    exact (List.append_assoc _ _ _).symm

theorem received (h : Queued H n r pre post) (hr : r'.waiting = r.waiting) :
    Queued H n r' pre post :=
  ⟨h.committed, h.last, by rw [hr, h.queue]⟩

/-- The next message is for the next entry with a command. -/
theorem next (h : Queued H n r pre post) {msg : ApplyMsg} {rest : List ApplyMsg}
    (hch : r.waiting = msg :: rest) (hrest : r'.waiting = rest) :
    ∃ skipped e post', (∀ x ∈ skipped, x.command = none) ∧ e.command = some msg.command ∧
      (pre ++ skipped ++ [e]).length = msg.commandIndex ∧
      Queued H n r' (pre ++ skipped ++ [e]) post' := by
  have hqueue := h.queue
  rw [hch, List.cons_append] at hqueue
  obtain ⟨skipped, e, post', rfl, hnil, hcmd, hidx, hms⟩ := messages_cons hqueue.symm
  have hsplit : pre ++ (skipped ++ e :: post') = pre ++ skipped ++ [e] ++ post' := by simp
  have hlength : (pre ++ skipped ++ [e]).length = msg.commandIndex := by
    rw [hidx, List.length_append, List.length_append]
    rfl
  refine ⟨skipped, e, post', hnil, hcmd, hlength, ?_, ?_, ?_⟩
  · rw [← hsplit]
    exact h.committed
  · rw [← hsplit]
    exact h.last
  · rw [hrest, hms, hlength, hidx]

/-- Nothing is on its way: what the store was not handed has no command. -/
theorem idle (h : Queued H n r pre post) (hch : r.waiting = []) (hout : n.outgoing = []) :
    writes J (pre ++ post) = writes J pre := by
  have hqueue := h.queue
  rw [hch, hout, List.append_nil] at hqueue
  have hnil : ∀ e ∈ post, e.command = none := by
    intro e he
    by_contra hne
    obtain ⟨command, hcommand⟩ := Option.ne_none_iff_exists'.mp hne
    obtain ⟨before, after, rfl⟩ := List.append_of_mem he
    rw [messages_append] at hqueue
    have hempty := (List.append_eq_nil_iff.mp hqueue.symm).2
    simp [messages, LogEntry.message, hcommand] at hempty
  rw [writes_append, writes_of_nil hnil, List.append_nil]

end Queued

end Queue

/-! ## §4  Stores between two states -/

variable (J) in
/-- The store has seen beginnings of the first `high` entries, and in this life `pre`. -/
structure Blended (H : List Event) (n : Node) (r : Replica) : Prop where
  intact : r.store.Intact
  life : ∃ pre post es, Queued H n r pre post ∧ pre <+: es ∧ es.length = r.high ∧
    CommittedPrefix H es ∧ Replayed (writes J es) (writes J pre) r.store.data

namespace Blended

variable {H H' : List Event} {n n' : Node} {r r' : Replica}

theorem keeps (h : Blended J H n r) (hH : H ⊆ H') (hn : KeepsLoop n n') : Blended J H' n' r := by
  obtain ⟨hintact, pre, post, es, hq, hpre, hlen, hes, hdata⟩ := h
  exact ⟨hintact, pre, post, es, hq.keeps hH hn, hpre, hlen, hes.mono hH, hdata⟩

theorem takes (h : Blended J H n r) (hH : H ⊆ H') (hn : Takes n n')
    (hcom : ∀ e, n.log[n.lastApplied + 1]? = some e → n.lastApplied < n.commitIndex →
      Committed H (n.lastApplied + 1) e) : Blended J H' n' r := by
  obtain ⟨hintact, pre, post, es, hq, hpre, hlen, hes, hdata⟩ := h
  obtain ⟨e, hq'⟩ := hq.takes hH hn hcom
  exact ⟨hintact, pre, post ++ [e], es, hq', hpre, hlen, hes.mono hH, hdata⟩

theorem sent (h : Blended J H n r) (hH : H ⊆ H') (hlast : n'.lastApplied = n.lastApplied)
    (hout : n'.outgoing = []) :
    Blended J H' n' { r with applyCh := r.applyCh ++ n.outgoing } := by
  obtain ⟨hintact, pre, post, es, hq, hpre, hlen, hes, hdata⟩ := h
  exact ⟨hintact, pre, post, es, hq.sent hH hlast hout, hpre, hlen, hes.mono hH, hdata⟩

theorem received (h : Blended J H n r) (hr : r.receive = some r') : Blended J H n r' := by
  obtain ⟨hwaiting, hstore, hhigh⟩ := receive_some hr
  obtain ⟨hintact, pre, post, es, hq, hpre, hlen, hes, hdata⟩ := h
  exact ⟨hstore ▸ hintact, pre, post, es, hq.received hwaiting, hpre, hhigh ▸ hlen, hes,
    hstore ▸ hdata⟩

/-- **One command**, for the first time or again. -/
theorem next (h : Blended J H n r) (hagree : Agrees H) {msg : ApplyMsg}
    (hch : r.waiting = msg :: r'.waiting) :
    ∃ pre post es, Queued H n r' pre post ∧ pre <+: es ∧
      es.length = max r.high msg.commandIndex ∧ CommittedPrefix H es ∧
      Replayed (writes J es) (writes J pre) (effect J r.store.data msg.command) := by
  obtain ⟨-, pre, post, es, hq, hpre, hlen, hes, hdata⟩ := h
  obtain ⟨skipped, e, post', hnil, hcmd, hidx, hq'⟩ := hq.next hch rfl
  have hto := hq'.committed.anti (List.prefix_append _ _)
  obtain ⟨gs, hgs, hesgs, hpregs, hglen⟩ := hes.exists_longer hagree hto
  refine ⟨_, post', gs, hq', hpregs, by rw [hglen, hlen, hidx], hgs, ?_⟩
  have hwrites : writes J (pre ++ skipped ++ [e]) = writes J pre ++ writesOf J e := by
    rw [writes_append, writes_append, writes_of_nil hnil, List.append_nil]
    simp [writes]
  have hstep : effect J r.store.data msg.command = applyAll r.store.data (writesOf J e) := by
    rw [apply_writesOf, hcmd]
    rfl
  have hwider := hdata.mono (writes_mono hesgs)
  rw [hwrites, hstep]
  unfold writesOf
  cases e.command.bind (callOf J) with
  | none => simpa [applyAll] using hwider
  | some c => exact hwider.snoc c.write

theorem applied (h : Blended J H n r) (hagree : Agrees H) (hr : r.apply J snap = some r')
    (hsize : ∀ p ∈ r.inFlight J, (encodeBody p.2.record).length ≤ maxBodySize) :
    Blended J H n r' := by
  obtain ⟨msg, hch, hhigh, hflight, hstore⟩ := apply_some hr
  have hlife := h.next hagree hch
  rw [← hhigh] at hlife
  constructor
  · rw [hstore]
    cases hc : callOf J msg.command with
    | none => exact h.intact
    | some c =>
        rw [hflight, hc] at hsize
        exact h.intact.call (hsize (msg.commandIndex, c) rfl)
  · have hdata : effect J r.store.data msg.command = r'.store.data := by
      rw [hstore]
      unfold effect
      cases callOf J msg.command with
      | none => rfl
      | some c => exact (Store.call_data r.store c).symm
    rw [hdata] at hlife
    exact hlife

/-- A new process on a file that a life has left. -/
theorem started {file : Bytes} {high : ℕ} {pre es : List LogEntry}
    (hintact : (openStore file).Intact) (hpre : pre <+: es) (hlen : es.length = high)
    (hes : CommittedPrefix H es)
    (hdata : Replayed (writes J es) (writes J pre) (openStore file).data)
    (hlast : n'.lastApplied = 0) (hout : n'.outgoing = []) :
    Blended J H n' (start file high) := by
  refine ⟨hintact, [], [], es, ⟨committedPrefix_nil H, hlast.symm, hout⟩, List.nil_prefix, hlen,
    hes, ?_⟩
  exact hdata.restart (writes_mono hpre)

theorem restarted {k : ℕ} (h : Blended J H n r) (hagree : Agrees H)
    (hclean : ∀ p ∈ r.inFlight J, k = 0 ∨
      (encode p.2.record).length ≤ k ∧ (encodeBody p.2.record).length ≤ maxBodySize)
    (hlast : n'.lastApplied = 0) (hout : n'.outgoing = []) :
    Blended J H n' (r.restart J k) := by
  obtain ⟨pre, post, es, -, hpre, hlen, hes, hdata⟩ := h.life
  obtain ⟨hopen, hsame⟩ := h.intact.reopen
  rw [← hsame] at hdata
  rw [restart]
  cases hflight : r.inFlight J with
  | none => exact started hopen hpre hlen hes hdata hlast hout
  | some p =>
      obtain ⟨idx, c⟩ := p
      dsimp only
      rcases hclean _ hflight with rfl | ⟨hwhole, hsize⟩
      · -- nothing of the frame survives
        have hpos : ¬ (encode c.record).length ≤ 0 := by
          rw [WAL.length_encode]
          omega
        have hfile : (r.store.log.append c.record).crash 0 = r.store.log.file :=
          List.append_nil _
        rw [if_neg hpos, hfile]
        exact started hopen hpre hlen hes hdata hlast hout
      · -- the whole frame survives, and the call counts
        obtain ⟨hopen', hcalled⟩ := h.intact.reopen_call hsize hwhole
        rw [if_pos hwhole]
        obtain ⟨msg, hwaiting, rfl, hc⟩ := inFlight_some hflight
        have hrest : r.waiting = msg :: ({ r with current := none } : Replica).waiting := hwaiting
        obtain ⟨pre', post', es', -, hpre', hlen', hes', hdata'⟩ := h.next hagree hrest
        refine started hopen' hpre' hlen' hes' ?_ hlast hout
        rw [hcalled, Store.call_data]
        unfold effect at hdata'
        rw [hc] at hdata'
        exact hdata'

end Blended

/-! ## §5  Runs -/

variable (J) in
def AllBlended (s : System) : Prop :=
  ∀ i, Blended J s.cluster.history (s.cluster.nodes i) (s.replicas i)

theorem blended_set {cluster : Cluster} {i : NodeId} {r : Replica}
    (hi : Blended J cluster.history (cluster.nodes i) r)
    (hother : ∀ j, j ≠ i → Blended J cluster.history (cluster.nodes j) (s.replicas j)) :
    AllBlended J ({ s with cluster }.setReplica i r) :=
  (Function.forall_update_iff s.replicas
    fun j => Blended J cluster.history (cluster.nodes j)).mpr ⟨hi, hother⟩

theorem blended_step {a : Action} (hw : Raft.Wired cfg s.cluster)
    (hcom : ∀ (i : NodeId) (k : ℕ) (e : LogEntry), 0 < k → k ≤ (s.cluster.nodes i).commitIndex →
      (s.cluster.nodes i).log[k]? = some e → Committed s.cluster.history k e)
    (hagree : Agrees s.cluster.history) (h : AllBlended J s) (hC : Whole J cfg s a)
    (hs : s.step J snap cfg a = some s') : AllBlended J s' := by
  cases a with
  | raft a =>
      obtain ⟨ha, cluster, hc, rfl⟩ := step_raft hs
      intro j
      have hH := Raft.history_mono hc
      rcases Raft.loop_step ha hc j with hkeeps | htakes
      · exact (h j).keeps hH hkeeps
      · exact (h j).takes hH htakes fun e he hlt => hcom j _ e (Nat.succ_pos _) hlt he
  | send i =>
      obtain ⟨cluster, hc, rfl⟩ := step_send hs
      have hH := Raft.history_mono hc
      obtain ⟨msg, -, rfl⟩ := Cluster.applySend_some hc
      refine blended_set ((h i).sent hH ?_ ?_) fun j hj => (h j).keeps hH ?_
      · show (Function.update s.cluster.nodes i _ i).lastApplied = _
        rw [Function.update_self]
      · show (Function.update s.cluster.nodes i _ i).outgoing = _
        rw [Function.update_self]
        rfl
      · show KeepsLoop _ (Function.update s.cluster.nodes i _ j)
        rw [Function.update_of_ne hj]
        exact ⟨rfl, rfl⟩
  | receive i =>
      obtain ⟨r, hr, rfl⟩ := step_receive hs
      exact blended_set ((h i).received hr) fun j _ => h j
  | apply i =>
      obtain ⟨r, hr, rfl⟩ := step_apply hs
      exact blended_set ((h i).applied hagree hr hC) fun j _ => h j
  | snapshot i => exact hC.elim
  | kill a n =>
      obtain ⟨i, cluster, hv, hc, rfl⟩ := step_kill hs
      obtain ⟨hH, hlast, hout, hother⟩ := Raft.loop_victim hw hv hc
      refine blended_set ?_ fun j hj => ?_
      · rw [hH]
        exact (h i).restarted hagree (hC.2 i hv) hlast hout
      · rw [hH, hother j hj]
        exact h j

theorem blended_run (h : Run (System.step J snap cfg) (Whole J cfg) (System.initial cfg) as s) :
    AllBlended J s := by
  induction h with
  | nil =>
      intro i
      exact Blended.started Store.intact_open_nil List.prefix_rfl rfl (committedPrefix_nil _)
        Replayed.start rfl rfl
  | snoc hrun hC hs ih =>
      obtain ⟨bs, hbs⟩ := whole_cluster_run hrun
      obtain ⟨hw, A, hi, habs⟩ := Raft.protocol_run hbs
      exact blended_step hw
        (fun i k e hpos hk he => Raft.committed_of_le hi habs (Raft.backed_run hbs) hpos hk he)
        (whole_agrees hrun) ih hC hs

/-- The node has applied as far as it ever had, and nothing is waiting. -/
def CaughtUp (s : System) (i : NodeId) : Prop :=
  (s.replicas i).high ≤ (s.cluster.nodes i).lastApplied ∧ (s.replicas i).waiting = [] ∧
    (s.cluster.nodes i).outgoing = []

/-- A node that has caught up holds the state of what it has applied. -/
theorem Blended.caughtUp {H : List Event} {n : Node} {r : Replica} (h : Blended J H n r)
    (hagree : Agrees H) (hhigh : r.high ≤ n.lastApplied) (hch : r.waiting = [])
    (hout : n.outgoing = []) :
    ∃ es, es.length = n.lastApplied ∧ CommittedPrefix H es ∧
      r.store.data = stateAfter J es := by
  obtain ⟨-, pre, post, es, hq, hpre, hlen, hes, hdata⟩ := h
  refine ⟨pre ++ post, hq.last, hq.committed, ?_⟩
  have hes' : es <+: pre ++ post := by
    refine hes.isPrefix hagree hq.committed ?_
    rw [hq.last, hlen]
    exact hhigh
  have hidle : writes J (pre ++ post) = writes J pre := hq.idle hch hout
  have hall := hdata.mono (writes_mono hes')
  rw [hidle] at hall
  rw [stateAfter_eq, hidle]
  exact hall.complete

/-- **Replicas converge.** Nodes agree on the committed sequence; every value a node
answers is the key's value after a beginning of it; a node that has caught up holds
the state after the entries it has applied, and two such nodes at the same index hold
the same map. -/
theorem replicas_converge
    (h : Run (System.step J snap cfg) (Whole J cfg) (System.initial cfg) as s) :
    Agrees s.cluster.history ∧
      (∀ i key, ∃ es, es.length ≤ (s.replicas i).high ∧ CommittedPrefix s.cluster.history es ∧
        (s.replicas i).store.get key = (stateAfter J es).lookup key) ∧
      (∀ i, CaughtUp s i → ∃ es, es.length = (s.cluster.nodes i).lastApplied ∧
        CommittedPrefix s.cluster.history es ∧ (s.replicas i).store.data = stateAfter J es) ∧
      ∀ i j, CaughtUp s i → CaughtUp s j →
        (s.cluster.nodes i).lastApplied = (s.cluster.nodes j).lastApplied →
        (s.replicas i).store.data = (s.replicas j).store.data := by
  have hagree := whole_agrees h
  have hall := blended_run h
  have hstate : ∀ i, CaughtUp s i → ∃ es, es.length = (s.cluster.nodes i).lastApplied ∧
      CommittedPrefix s.cluster.history es ∧ (s.replicas i).store.data = stateAfter J es := by
    rintro i ⟨hhigh, hch, hout⟩
    exact (hall i).caughtUp hagree hhigh hch hout
  refine ⟨hagree, ?_, hstate, ?_⟩
  · intro i key
    obtain ⟨-, pre, post, es, -, hpre, hlen, hes, hdata⟩ := hall i
    obtain ⟨vs, hvs, hlook⟩ := hdata.lookup (writes_mono hpre) key
    obtain ⟨fs, hfs, rfl⟩ := exists_prefix_of_writes hvs
    refine ⟨fs, ?_, hes.anti hfs, ?_⟩
    · rw [← hlen]
      exact hfs.length_le
    · rw [stateAfter_eq]
      exact hlook
  · intro i j hi hj hsame
    obtain ⟨es, hlen, hes, hdata⟩ := hstate i hi
    obtain ⟨fs, hlen', hfs, hdata'⟩ := hstate j hj
    have hlength : es.length = fs.length := by rw [hlen, hlen', hsame]
    have heq : es = fs :=
      (hes.isPrefix hagree hfs (Nat.le_of_eq hlength)).eq_of_length hlength
    rw [hdata, hdata', heq]

/-- `B` applies both commands, is restarted, and both arrive again, at the store that
holds them. -/
def convergeOps : List Action :=
  caughtUpOps ++ goesBackOps ++ [.raft (.applyTake [66]), .send [66], .receive [66],
    .apply [66], .raft (.applyWake [65]), .raft (.applyTake [65]), .send [65], .receive [65],
    .raft (.applyTake [65]), .send [65], .apply [65], .receive [65], .apply [65]]

def converged : System :=
  Foundation.endState duoStep (Whole RaftStore.goJson duo) (System.initial duo) convergeOps

theorem replicas_converge_restarted :
    (converged.replicas [66]).store.get [97] = some [50] ∧
      (converged.replicas [65]).store.data = (converged.replicas [66]).store.data := by
  have hrun : Run duoStep (Whole RaftStore.goJson duo) (System.initial duo) convergeOps
      converged := Foundation.run_endState (by decide +kernel)
  obtain ⟨-, -, -, hsame⟩ := replicas_converge hrun
  refine ⟨by decide +kernel, hsame [65] [66] ?_ ?_ (by decide +kernel)⟩
  · exact ⟨by decide +kernel, by decide +kernel, by decide +kernel⟩
  · exact ⟨by decide +kernel, by decide +kernel, by decide +kernel⟩

end KVEngine.Replica
