import KVEngine.Raft.Refinement

/-!
# Safety of the cluster

Log matching, leader completeness and state machine safety, for every run
without snapshots whose history has at most one leader a term, with unbounded
terms. All three are read off the invariant of the abstract protocol through
`refine_run`.
-/

namespace KVEngine.Raft

open Foundation (Run)
open Foundation.ReplicatedLog (Inv)

/-! ## §1  Runs without snapshots -/

def Action.isSnapshot : Action → Bool
  | .takeSnapshot _ _ _ => true
  | _ => false

/-- The step is not a `TakeSnapshot`. -/
def NoSnapshot (_ : Cluster) (a : Action) : Prop := a.isSnapshot = false

instance (s : Cluster) (a : Action) : Decidable (NoSnapshot s a) :=
  inferInstanceAs (Decidable (_ = _))

/-- Two members, ids `"A"` and `"B"`, with unbounded terms. -/
def pair : Config := Config.ofIds [[65], [66]] (· + 1) (by decide)

/-- `A` is elected in term `1`, commits a command and delivers it; `B` learns of
the commit and delivers it too. Then `B` is elected in term `2`. -/
def pairActions : List Action :=
  [.startElection [65], .deliverVote 0, .voteReply 0, .propose [65] (some [7]),
   .deliverAppend 1, .appendReply 1, .applyWake [65], .applyTake [65], .applySend [65],
   .heartbeat [65], .deliverAppend 2, .applyWake [66], .applyTake [66], .applySend [66],
   .startElection [66], .deliverVote 1, .voteReply 1]

def pairEnd : Cluster :=
  Foundation.endState (Cluster.step pair) NoSnapshot (Cluster.initial pair) pairActions

theorem pair_run :
    Run (Cluster.step pair) NoSnapshot (Cluster.initial pair) pairActions pairEnd :=
  Foundation.run_endState (by decide +kernel)

section Runs

variable {cfg : Config} {as : List Action} {s : Cluster}

theorem plain_of_noSnapshot {a : Action} (hterms : ∀ t, cfg.incr t = t + 1)
    (h : NoSnapshot s a) : Plain cfg s a := by
  cases a with
  | startElection i => exact hterms _
  | takeSnapshot i upToIndex data => exact Bool.noConfusion h
  | _ => trivial

theorem plain_run (hterms : ∀ t, cfg.incr t = t + 1)
    (h : Run (Cluster.step cfg) NoSnapshot (Cluster.initial cfg) as s) :
    Run (Cluster.step cfg) (Plain cfg) (Cluster.initial cfg) as s :=
  h.mono fun hC hs => ⟨plain_of_noSnapshot hterms hC, hs⟩

/-! ## §2  Log matching -/

/-- **Log Matching.** Logs that have the same term at an index are identical up
to it; so are a log and the segment of an append request, as far as the segment
reaches. -/
theorem log_matching (hterms : ∀ t, cfg.incr t = t + 1)
    (h : Run (Cluster.step cfg) NoSnapshot (Cluster.initial cfg) as s)
    (huniq : UniqueLeaders s.history) :
    (∀ i j (k : ℕ) (x y : LogEntry), (s.nodes i).log[k]? = some x → (s.nodes j).log[k]? = some y →
      x.term = y.term → ∀ k' ≤ k, (s.nodes i).log[k']? = (s.nodes j).log[k']?) ∧
    (∀ i, ∀ rpc ∈ s.appendRpcs, ∀ (k : ℕ) (x y : LogEntry), rpc.args.entries[k]? = some x →
      (s.nodes i).log[rpc.args.prevLogIndex + 1 + k]? = some y → x.term = y.term →
      (s.nodes i).log[rpc.args.prevLogIndex]?.map LogEntry.term =
          some rpc.args.prevLogTerm ∧
        ∀ k' ≤ k, (s.nodes i).log[rpc.args.prevLogIndex + 1 + k']? =
          rpc.args.entries[k']?) := by
  obtain ⟨A, hi, habs⟩ := refine_run (plain_run hterms h) huniq
  constructor
  · intro i j k x y hx hy hxy k' hk'
    rw [← habs.log i] at hx ⊢
    rw [← habs.log j] at hy ⊢
    have htake := (hi.good i).agree (hi.good j) k x y hx hy hxy
    have heq := congrArg (fun l : List LogEntry => l[k']?) htake
    simpa [List.getElem?_take_of_lt (Nat.lt_succ_of_le hk')] using heq
  · intro i rpc hr k x y hx hy hxy
    rw [← habs.log i] at hy ⊢
    exact hi.segment_agree (habs.sent rpc hr) hx hy hxy

/-- In the run of the pair both logs end in the entry of term `1`, and so does
the segment of request `1`. -/
theorem log_matching_pair :
    (∀ k ≤ 1, (pairEnd.nodes [65]).log[k]? = (pairEnd.nodes [66]).log[k]?) ∧
      ∃ rpc ∈ pairEnd.appendRpcs, rpc.args.entries = [⟨1, some [7]⟩] ∧
        (pairEnd.nodes [66]).log[1]? = some ⟨1, some [7]⟩ := by
  have h := log_matching (fun _ => rfl) pair_run (by decide +kernel)
  have hlog : ∀ i ∈ pair.ids, (pairEnd.nodes i).log[1]? = some ⟨1, some [7]⟩ := by
    decide +kernel
  obtain ⟨rpc, hr, hp, hes⟩ : ∃ rpc ∈ pairEnd.appendRpcs, rpc.args.prevLogIndex = 0 ∧
      rpc.args.entries = [⟨1, some [7]⟩] := by
    decide +kernel
  refine ⟨h.1 [65] [66] 1 _ _ (hlog _ (by decide)) (hlog _ (by decide)) rfl, rpc, hr, hes, ?_⟩
  have hseg := h.2 [66] rpc hr 0 ⟨1, some [7]⟩ ⟨1, some [7]⟩ (by rw [hes]; rfl)
    (by rw [hp]; exact hlog _ (by decide)) rfl
  have h1 := hseg.2 0 (le_refl 0)
  rw [hp, hes] at h1
  exact h1

/-! ## §3  Leader completeness -/

/-- **Leader Completeness.** When the leader of term `T` advanced its commit
index to `c` with log `L`, every node that becomes leader in a later term does
so with the entries of `L` up to `c`. -/
theorem leader_completeness (hterms : ∀ t, cfg.incr t = t + 1)
    (h : Run (Cluster.step cfg) NoSnapshot (Cluster.initial cfg) as s)
    (huniq : UniqueLeaders s.history) {i j : NodeId} {T U c : ℕ} {L M : List LogEntry}
    (hadv : Event.advanced i T c L ∈ s.history)
    (hlead : Event.becameLeader j U M ∈ s.history) (hTU : T < U) :
    c < L.length ∧ ∀ k ≤ c, M[k]? = L[k]? := by
  obtain ⟨A, hi, habs⟩ := refine_run (plain_run hterms h) huniq
  obtain ⟨hA, hL, hc⟩ := habs.ledger _ hadv
  have hM := hi.advanced_in_elected hA hTU (habs.ledger _ hlead)
  refine ⟨hc, fun k hk => ?_⟩
  have hkL : L[k]? = some L[k] := List.getElem?_eq_getElem (by omega)
  rw [hkL]
  apply Foundation.prefix_getElem? hM
  rw [List.getElem?_take_of_lt (by omega)]
  exact Foundation.prefix_getElem? hL hkL

/-- `B` starts term `2` with the entry `A` committed in term `1`. -/
theorem leader_completeness_pair :
    Event.advanced [65] 1 1 [sentinel, ⟨1, some [7]⟩] ∈ pairEnd.history ∧
      Event.becameLeader [66] 2 [sentinel, ⟨1, some [7]⟩] ∈ pairEnd.history ∧
      ∀ k ≤ 1, [sentinel, ⟨1, some [7]⟩][k]? = [sentinel, ⟨1, some [7]⟩][k]? :=
  ⟨by decide +kernel, by decide +kernel,
    (leader_completeness (fun _ => rfl) pair_run (by decide +kernel)
      (by decide +kernel : Event.advanced [65] 1 1 [sentinel, ⟨1, some [7]⟩] ∈
        pairEnd.history)
      (by decide +kernel : Event.becameLeader [66] 2 [sentinel, ⟨1, some [7]⟩] ∈
        pairEnd.history) (by decide)).2⟩

/-! ## §4  State machine safety -/

/-- **State Machine Safety.** Two messages delivered with the same index, by any
nodes at any time, carry the same command. -/
theorem state_machine_safety (hterms : ∀ t, cfg.incr t = t + 1)
    (h : Run (Cluster.step cfg) NoSnapshot (Cluster.initial cfg) as s)
    (huniq : UniqueLeaders s.history) {i j : NodeId} {k : ℕ} {c d : Bytes}
    (hc : Event.delivered i ⟨k, c⟩ ∈ s.history)
    (hd : Event.delivered j ⟨k, d⟩ ∈ s.history) : c = d := by
  have hplain := plain_run hterms h
  obtain ⟨A, hi, habs⟩ := refine_run hplain huniq
  have happ := (wired_run hplain).applied
  obtain ⟨x, hx, hxc⟩ := happ.delivered i _ hc
  obtain ⟨y, hy, hyd⟩ := happ.delivered j _ hd
  have hxy : x = y := hi.delivered_agree (habs.ledger _ hx) (habs.ledger _ hy)
  rw [hxy, hyd] at hxc
  exact (Option.some.inj hxc).symm

/-- `A` and `B` both deliver at index `1`. -/
theorem state_machine_safety_pair :
    Event.delivered [65] ⟨1, [7]⟩ ∈ pairEnd.history ∧
      Event.delivered [66] ⟨1, [7]⟩ ∈ pairEnd.history ∧ ([7] : Bytes) = [7] :=
  ⟨by decide +kernel, by decide +kernel,
    state_machine_safety (fun _ => rfl) pair_run (by decide +kernel)
      (by decide +kernel : Event.delivered [65] ⟨1, [7]⟩ ∈ pairEnd.history)
      (by decide +kernel : Event.delivered [66] ⟨1, [7]⟩ ∈ pairEnd.history)⟩

end Runs

end KVEngine.Raft
