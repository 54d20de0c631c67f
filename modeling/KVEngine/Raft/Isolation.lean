import KVEngine.Raft.Matching
import KVEngine.Raft.Senders
import KVEngine.Raft.Stability
import KVEngine.Raft.Terms
import KVEngine.Raft.Transport

/-!
# A minority that is cut off

Let `S` be no majority, and let every link from `S` to the other members be cut from
some time on. Calls that had passed the transport by then may still arrive, later ones
do not (`Stuck`). So no member of `S` wins a term that it starts after the cut, and one
that led before goes on leading without committing anything it is given after it
(`isolated_minority`): a majority would have to hear of either.

The links into `S` may stay up, and `S` may be in touch with itself.
-/

namespace KVEngine.Raft

open Foundation (Run)
open Foundation.ReplicatedLog

/-! ## §1  Leaders that stay -/

section Requests

variable {cfg : Config} {s s' : Cluster} {a : Action} {i : NodeId} {T : ℕ}

/-- Who leads a term it had won before was leading it already: it does not campaign for
the term again. -/
theorem leader_step {L : List LogEntry} (hw : Wired cfg s) (hC : Plain cfg s a)
    (hs : s.step cfg a = some s') (hwon : Event.becameLeader i T L ∈ s.history)
    (hl : (s'.nodes i).role = .leader) (ht : (s'.nodes i).currentTerm = T) :
    (s.nodes i).role = .leader ∧ (s.nodes i).currentTerm = T := by
  obtain ⟨hle, hcand⟩ := hw.ballots.past i T L hwon
  by_contra hne
  -- otherwise the node is in no reign, and so in one with a log of any length
  have hreign : ∀ j, j = i → Reign T ((s'.nodes i).log ++ [sentinel]) (s.nodes j) := by
    rintro j rfl
    rcases hle.lt_or_eq with hlt | heq
    · exact Or.inl hlt
    · exact Or.inr ⟨heq.symm, hcand heq, fun hrole => absurd ⟨hrole, heq.symm⟩ hne⟩
  rcases reign_step hw hreign hC hs i rfl with hlt | ⟨-, -, hlog⟩
  · omega
  · have hlen := (hlog hl).length_le
    rw [List.length_append, List.length_singleton] at hlen
    omega

/-- What a leader has sent in its term is in its log. -/
theorem sent_lt {A : State NodeId LogEntry} (hi : Inv (params cfg) A) (habs : Abstracts s A)
    (hl : (s.nodes i).role = .leader) {rpc : AppendRpc} (hr : rpc ∈ s.appendRpcs)
    (ht : (s.nodes i).currentTerm = rpc.args.term) :
    rpc.args.prevLogIndex + rpc.args.entries.length < (s.nodes i).log.length := by
  have hprev := prevLogIndex_lt hi habs hl hr ht
  have hlen := (hi.sent _ (habs.sent rpc hr)).entries.length_le
  have hlog : A.leaderLog rpc.args.term = (s.nodes i).log := ht ▸ leaderLog_eq hi habs hl
  change rpc.args.entries.length ≤
    ((A.leaderLog rpc.args.term).drop (rpc.args.prevLogIndex + 1)).length at hlen
  rw [hlog, List.length_drop] at hlen
  omega

end Requests

/-! ## §2  Calls that do not get through -/

/-- Every link from `S` to another member is cut. -/
def Transport.Severed {T Op : Type} (τ : Transport T Op) (cfg : Config) (S : Finset NodeId)
    (t : T) : Prop :=
  ∀ src ∈ S, ∀ dst ∈ cfg.ids, dst ∉ S → (τ.passes .requestVote src dst t).1 = false ∧
    (τ.passes .appendEntries src dst t).1 = false

instance {T Op : Type} (τ : Transport T Op) (cfg : Config) (S : Finset NodeId) (t : T) :
    Decidable (τ.Severed cfg S t) := by
  unfold Transport.Severed
  infer_instance

theorem MemTransport.severed_iff {cfg : Config} {S : Finset NodeId} {t : MemTransport} :
    MemTransport.transport.Severed cfg S t ↔
      ∀ src ∈ S, ∀ dst ∈ cfg.ids, dst ∉ S → t.isPartitioned src dst = true := by
  constructor
  · intro h src hsrc dst hdst hout
    simpa [MemTransport.transport] using h src hsrc dst hdst hout
  · intro h src hsrc dst hdst hout
    simp [MemTransport.transport, h src hsrc dst hdst hout]

/-- A rate of `1` drops everything, for the numbers drawn are smaller. -/
theorem SimTransport.severed_of_rate {R : Type} {rng : Rng R} {cfg : Config}
    {S : Finset NodeId} {t : SimTransport R}
    (h : ∀ src ∈ S, ∀ dst ∈ cfg.ids, dst ∉ S → 1 ≤ t.dropRate src dst) :
    (SimTransport.transport rng).Severed cfg S t := by
  intro src hsrc dst hdst hout
  have hdrop : (rng.float64 t.rng).1 < t.dropRate src dst :=
    (rng.lt_one t.rng).trans_le (h src hsrc dst hdst hout)
  simp [SimTransport.transport, SimTransport.shouldDrop, hdrop]

/-- The calls `xs` go on from `old`. Of the new ones those in `P` have not got through,
and the stages of calls to come are fresh. -/
structure Stuck {α : Type} (P : α → Prop) (old xs : List α) (stage : ℕ → Stage) : Prop where
  kept : old <+: xs
  held : ∀ r x, old.length ≤ r → xs[r]? = some x → P x → stage r = .calling ∨ stage r = .failed
  fresh : ∀ r, xs.length ≤ r → stage r = .calling

section Calls

variable {α : Type} {P : α → Prop} {old xs ys : List α} {stage : ℕ → Stage} {r : ℕ} {x : α}

theorem Stuck.grow (h : Stuck P old xs stage) (hxs : xs <+: ys) : Stuck P old ys stage where
  kept := h.kept.trans hxs
  held := by
    intro r x hr hx hP
    obtain ⟨zs, rfl⟩ := hxs
    rcases Nat.lt_or_ge r xs.length with hlt | hge
    · rw [List.getElem?_append_left hlt] at hx
      exact h.held r x hr hx hP
    · exact Or.inl (h.fresh r hge)
  fresh := fun r hr => h.fresh r (hxs.length_le.trans hr)

theorem Stuck.update (h : Stuck P old xs stage) (hx : xs[r]? = some x) {st : Stage}
    (hst : P x → old.length ≤ r → st = .calling ∨ st = .failed) :
    Stuck P old xs (Function.update stage r st) where
  kept := h.kept
  held := by
    intro k y hk hy hP
    by_cases hkr : k = r
    · subst hkr
      rw [Function.update_self]
      cases hx.symm.trans hy
      exact hst hP hk
    · rw [Function.update_of_ne hkr]
      exact h.held k y hk hy hP
  fresh := by
    intro k hk
    have hlt := (List.getElem?_eq_some_iff.mp hx).1
    rw [Function.update_of_ne (by omega)]
    exact h.fresh k hk

theorem Stuck.ask (h : Stuck P old xs stage) (hx : xs[r]? = some x) {ok : Bool}
    (hok : P x → ok = false) :
    Stuck P old xs (Function.update stage r (if ok then .admitted else .failed)) := by
  refine h.update hx fun hP _ => Or.inr ?_
  rw [hok hP]
  rfl

/-- A call that was let through is none of the new ones in `P`. -/
theorem Stuck.find (h : Stuck P old xs stage) (hx : xs[r]? = some x)
    (hst : stage r = .admitted) (st : Stage) :
    Stuck P old xs (Function.update stage r st) := by
  refine h.update hx fun hP hr => ?_
  rcases h.held r x hr hx hP with hc | hc <;> cases hc.symm.trans hst

/-- All calls are old. -/
theorem Stuck.here (h : Stuck P old xs stage) (Q : α → Prop) : Stuck Q xs xs stage where
  kept := List.prefix_refl _
  held := by
    intro r x hr hx
    have hlt := (List.getElem?_eq_some_iff.mp hx).1
    omega
  fresh := h.fresh

/-- A call that gets through is an old one. -/
theorem Stuck.mem_old (h : Stuck P old xs stage) (hx : xs[r]? = some x) (hP : P x)
    (hst : stage r = .found) : x ∈ old := by
  rcases Nat.lt_or_ge r old.length with hlt | hge
  · obtain ⟨zs, rfl⟩ := h.kept
    rw [List.getElem?_append_left hlt] at hx
    exact List.mem_of_getElem? hx
  · rcases h.held r x hge hx hP with hc | hc <;> cases hc.symm.trans hst

end Calls

/-- What `S` has called for since `s₀`. -/
structure CutOff {T : Type} (S : Finset NodeId) (s₀ : Cluster) (n : Network T) : Prop where
  votes : Stuck (fun rpc : VoteRpc => rpc.src ∈ S ∧ rpc.dst ∉ S) s₀.voteCalls
    n.cluster.voteCalls n.votes
  appends : Stuck (fun rpc : AppendRpc => rpc.src ∈ S ∧ rpc.dst ∉ S) s₀.appendCalls
    n.cluster.appendCalls n.appends

section CutOffs

variable {T Op : Type} {τ : Transport T Op} {cfg : Config} {S : Finset NodeId} {s₀ : Cluster}
  {n n' : Network T} {a : NetAction Op} {r : ℕ}

theorem Cluster.voteCalls_of_getElem? {s : Cluster} {rpc : VoteRpc}
    (hr : s.voteRpcs[r]? = some rpc) : s.voteCalls[r]? = some rpc.call := by
  rw [Cluster.voteCalls, List.getElem?_map, hr]
  rfl

theorem Cluster.appendCalls_of_getElem? {s : Cluster} {rpc : AppendRpc}
    (hr : s.appendRpcs[r]? = some rpc) : s.appendCalls[r]? = some rpc.call := by
  rw [Cluster.appendCalls, List.getElem?_map, hr]
  rfl

theorem CutOff.old_vote (h : CutOff S s₀ n) {rpc : VoteRpc}
    (hr : n.cluster.voteRpcs[r]? = some rpc) (hsrc : rpc.src ∈ S) (hdst : rpc.dst ∉ S)
    (hst : n.votes r = .found) : ∃ old ∈ s₀.voteRpcs, old.call = rpc.call :=
  List.mem_map.mp (h.votes.mem_old (Cluster.voteCalls_of_getElem? hr) ⟨hsrc, hdst⟩ hst)

theorem CutOff.old_append (h : CutOff S s₀ n) {rpc : AppendRpc}
    (hr : n.cluster.appendRpcs[r]? = some rpc) (hsrc : rpc.src ∈ S) (hdst : rpc.dst ∉ S)
    (hst : n.appends r = .found) : ∃ old ∈ s₀.appendRpcs, old.call = rpc.call :=
  List.mem_map.mp (h.appends.mem_old (Cluster.appendCalls_of_getElem? hr) ⟨hsrc, hdst⟩ hst)

theorem cutOff_step (hk : Known cfg n.cluster) (h : CutOff S s₀ n)
    (hsev : τ.Severed cfg S n.transport) (hs : n.step τ cfg a = some n') : CutOff S s₀ n' := by
  cases a with
  | raft b =>
      obtain ⟨-, hs⟩ := Foundation.guard_bind_eq_some hs
      obtain ⟨s', hs', hs⟩ := Option.bind_eq_some_iff.mp hs
      cases hs
      obtain ⟨l, hl, -⟩ := (Cluster.step_adds hk.wired hs').votes
      obtain ⟨m, hm, -⟩ := (Cluster.step_adds hk.wired hs').appends
      exact ⟨h.votes.grow ⟨l, hl.symm⟩, h.appends.grow ⟨m, hm.symm⟩⟩
  | op o =>
      cases hs
      exact ⟨h.votes, h.appends⟩
  | admitVote r =>
      obtain ⟨rpc, hr, hs⟩ := Option.bind_eq_some_iff.mp hs
      obtain ⟨-, hs⟩ := Foundation.guard_bind_eq_some hs
      cases hs
      refine ⟨h.votes.ask (Cluster.voteCalls_of_getElem? hr) fun hP => ?_, h.appends⟩
      obtain ⟨hsrc, hdst, hcand, -⟩ := hk.wired.ballots.call rpc (List.mem_of_getElem? hr)
      rw [hcand]
      exact (hsev rpc.src hP.1 rpc.dst ((cfg.mem_peers _ hsrc _).mp hdst).1 hP.2).1
  | findVote r =>
      obtain ⟨rpc, hr, hs⟩ := Option.bind_eq_some_iff.mp hs
      obtain ⟨hst, hs⟩ := Foundation.guard_bind_eq_some hs
      cases hs
      exact ⟨h.votes.find (Cluster.voteCalls_of_getElem? hr) hst _, h.appends⟩
  | admitAppend r =>
      obtain ⟨rpc, hr, hs⟩ := Option.bind_eq_some_iff.mp hs
      obtain ⟨-, hs⟩ := Foundation.guard_bind_eq_some hs
      cases hs
      refine ⟨h.votes, h.appends.ask (Cluster.appendCalls_of_getElem? hr) fun hP => ?_⟩
      have hmem := List.mem_of_getElem? hr
      have hdst := ((cfg.mem_peers _ (hk.wired.replicas.src rpc hmem) _).mp
        (hk.signed.dst rpc hmem)).1
      rw [hk.signed.id rpc hmem]
      exact (hsev rpc.src hP.1 rpc.dst hdst hP.2).2
  | findAppend r =>
      obtain ⟨rpc, hr, hs⟩ := Option.bind_eq_some_iff.mp hs
      obtain ⟨hst, hs⟩ := Foundation.guard_bind_eq_some hs
      cases hs
      exact ⟨h.votes, h.appends.find (Cluster.appendCalls_of_getElem? hr) hst _⟩

end CutOffs

/-! ## §3  What a minority does not hear of -/

/-- No vote from outside for a term of `S` that began after `s₀`. -/
def Unvoted (S : Finset NodeId) (s₀ s : Cluster) : Prop :=
  ∀ i ∈ S, ∀ q, q ∉ S → ∀ T, Event.voted q T i ∈ s.history → T ≤ (s₀.nodes i).currentTerm

/-- Nobody outside has accepted what a leader in `S` took after `s₀`, and no such leader
has committed it. -/
structure Unheard (S : Finset NodeId) (s₀ s : Cluster) : Prop where
  accepted : ∀ i ∈ S, (s₀.nodes i).role = .leader → ∀ q, q ∉ S → ∀ m,
    Event.accepted q (s₀.nodes i).currentTerm m ∈ s.history → m < (s₀.nodes i).log.length
  commit : ∀ i ∈ S, (s₀.nodes i).role = .leader → (s.nodes i).role = .leader →
    (s.nodes i).currentTerm = (s₀.nodes i).currentTerm →
    (s.nodes i).commitIndex < (s₀.nodes i).log.length

/-- A majority has a member outside `S`. -/
theorem Majority.exists_notMem {cfg : Config} {F S : Finset NodeId} (hF : Majority cfg F)
    (hS : 2 * S.card ≤ cfg.ids.length) : ∃ q ∈ F, q ∉ S := by
  by_contra hne
  simp only [not_exists, not_and, not_not] at hne
  have hle := Finset.card_le_card (show F ⊆ S from hne)
  have hlt := hF.card
  omega

section Minorities

variable {T Op : Type} {τ : Transport T Op} {cfg : Config} {S : Finset NodeId} {s₀ s' : Cluster}
  {n : Network T} {b : Action} {A : State NodeId LogEntry}

theorem unvoted_self (h : Known cfg s₀) : Unvoted S s₀ s₀ := by
  intro i hi q hq T hev
  obtain ⟨rpc, hr, rfl, rfl⟩ := h.asked q T i hev (fun heq => hq (heq ▸ hi))
  exact (h.wired.ballots.call rpc hr).2.2.2.1

theorem unvoted_step (h₀ : Known cfg s₀) (hk : Known cfg n.cluster) (hcut : CutOff S s₀ n)
    (h : Unvoted S s₀ n.cluster) (hb : n.Handles b) (hs : n.cluster.step cfg b = some s') :
    Unvoted S s₀ s' := by
  intro i hi q hq T hev
  rcases Cluster.step_event hk.wired hs hev with
    hold | ⟨-, ⟨-, rfl⟩ | ⟨r, rpc, rfl, hr, rfl, rfl, rfl⟩⟩
  · exact h i hi q hq T hold
  · exact absurd hi hq
  -- the request was on its way at `s₀`
  · obtain ⟨old, hmem, hcall⟩ := hcut.old_vote hr hi hq hb
    obtain ⟨hsrc, -, hargs⟩ := VoteRpc.of_call hcall
    rw [← hsrc, ← hargs]
    exact (h₀.wired.ballots.call old hmem).2.2.2.1

theorem unheard_self (h : Known cfg s₀) (hi : Inv (params cfg) A) (habs : Abstracts s₀ A) :
    Unheard S s₀ s₀ :=
  ⟨fun _ _ hl _ _ _ hacc => accepted_lt hi habs hl hacc,
    fun i _ _ _ _ => commitIndex_lt h.wired hi habs i⟩

theorem unheard_step (hS : 2 * S.card ≤ cfg.ids.length) (h₀ : Known cfg s₀)
    (hi : Inv (params cfg) A) (habs : Abstracts s₀ A) (hk : Known cfg n.cluster)
    (hk' : Known cfg s') (hgrow : s₀.history ⊆ n.cluster.history) (hcut : CutOff S s₀ n)
    (h : Unheard S s₀ n.cluster) (hC : Plain cfg n.cluster b) (hb : n.Handles b)
    (hs : n.cluster.step cfg b = some s') (huniq : UniqueLeaders s'.history) :
    Unheard S s₀ s' := by
  have hmono := history_mono hs
  have hwon : ∀ i, (s₀.nodes i).role = .leader →
      ∃ L, Event.becameLeader i (s₀.nodes i).currentTerm L ∈ n.cluster.history := by
    intro i hl
    obtain ⟨L, hL⟩ := h₀.polls.leader i hl
    exact ⟨L, hgrow hL⟩
  constructor
  · intro i hiS hl q hq m hev
    obtain ⟨L, hL⟩ := hwon i hl
    rcases Cluster.step_event hk.wired hs hev with
      hold | ⟨hlead, hterm⟩ | ⟨r, rpc, rfl, hr, rfl, hterm, rfl⟩
    · exact h.accepted i hiS hl q hq m hold
    -- a leader outside would be a second one of the term
    · obtain ⟨M, hM⟩ := hk'.polls.leader q hlead
      rw [hterm] at hM
      exact absurd (huniq q i _ M L hM (hmono hL) ▸ hiS) hq
    · obtain ⟨M, hM⟩ := hk.signed.leader rpc (List.mem_of_getElem? hr)
      rw [hterm] at hM
      obtain rfl : rpc.src = i := huniq _ _ _ M L (hmono hM) (hmono hL)
      obtain ⟨old, hmem, hcall⟩ := hcut.old_append hr hiS hq hb
      obtain ⟨-, -, hargs⟩ := AppendRpc.of_call hcall
      rw [← hargs] at hterm ⊢
      exact sent_lt hi habs hl hmem hterm.symm
  · intro i hiS hl hl' hterm
    obtain ⟨L, hL⟩ := hwon i hl
    obtain ⟨hlead, hsame⟩ := leader_step hk.wired hC hs hL hl' hterm
    have hold := h.commit i hiS hl hlead hsame
    rcases Nat.lt_or_ge (n.cluster.nodes i).commitIndex (s'.nodes i).commitIndex with hlt | hge
    · obtain ⟨F, hF, hacc⟩ := (commit_counted hk.wired hs hl' hlt).majority
      obtain ⟨q, hqF, hq⟩ := hF.exists_notMem hS
      obtain ⟨m, hm, hev⟩ := hacc q hqF
      rw [hsame] at hev
      exact hm.trans_lt (h.accepted i hiS hl q hq m hev)
    · exact hge.trans_lt hold

/-- The links out of `S` stay cut, and no snapshot is taken. -/
def CutAway (τ : Transport T Op) (cfg : Config) (S : Finset NodeId) (u : Network T)
    (a : NetAction Op) : Prop :=
  Network.Unsnapped u a ∧ τ.Severed cfg S u.transport

instance (τ : Transport T Op) (cfg : Config) (S : Finset NodeId) (u : Network T)
    (a : NetAction Op) : Decidable (CutAway τ cfg S u a) :=
  inferInstanceAs (Decidable (_ ∧ _))

/-- What is known of a state after the cut. -/
structure Isolated (cfg : Config) (S : Finset NodeId) (s₀ : Cluster) (u : Network T) : Prop where
  known : Known cfg u.cluster
  cut : CutOff S s₀ u
  grown : s₀.history ⊆ u.cluster.history
  unvoted : Unvoted S s₀ u.cluster
  unheard : UniqueLeaders u.cluster.history → Unheard S s₀ u.cluster

/-- **One step after the cut.** -/
theorem isolated_step (hterms : ∀ t, cfg.incr t = t + 1) (hS : 2 * S.card ≤ cfg.ids.length)
    (h₀ : Known cfg s₀)
    (habs : UniqueLeaders s₀.history → ∃ A, Inv (params cfg) A ∧ Abstracts s₀ A)
    {u v : Network T} {a : NetAction Op} (h : Isolated cfg S s₀ u) (hC : CutAway τ cfg S u a)
    (hs : u.step τ cfg a = some v) : Isolated cfg S s₀ v := by
  have hcut := cutOff_step h.known h.cut hC.2 hs
  rcases Network.step_cases hs with ⟨b, s', rfl, hb, hs', rfl⟩ | hsame
  · have hplain : Plain cfg u.cluster b := plain_of_noSnapshot hterms hC.1
    have hk' := known_step h.known hplain hs'
    refine ⟨hk', hcut, fun ev hev => history_mono hs' (h.grown hev),
      unvoted_step h₀ h.known h.cut h.unvoted hb hs', fun huniq => ?_⟩
    have huniq' := UniqueLeaders.anti (history_mono hs') huniq
    obtain ⟨A, hi, hA⟩ := habs (UniqueLeaders.anti h.grown huniq')
    exact unheard_step hS h₀ hi hA h.known hk' h.grown h.cut (h.unheard huniq') hplain hb hs' huniq
  · obtain ⟨hk, -, hgrown, hunvoted, hunheard⟩ := h
    rw [← hsame] at hk hgrown hunvoted hunheard
    exact ⟨hk, hcut, hgrown, hunvoted, hunheard⟩

/-- **A minority that is cut off** wins no term that it starts after the cut, and a
leader in it stays in its term and commits nothing it takes after the cut. -/
theorem isolated_minority (hterms : ∀ t, cfg.incr t = t + 1)
    (hS : 2 * S.card ≤ cfg.ids.length) {t : T} {as bs : List (NetAction Op)} {n' : Network T}
    (h : Run (Network.step τ cfg) Network.Unsnapped (Network.initial cfg t) as n)
    (h' : Run (Network.step τ cfg) (CutAway τ cfg S) n bs n') :
    (∀ i ∈ S, ∀ T L, Event.becameLeader i T L ∈ n'.cluster.history →
      T ≤ (n.cluster.nodes i).currentTerm) ∧
    (UniqueLeaders n'.cluster.history → ∀ i ∈ S, (n.cluster.nodes i).role = .leader →
      (n'.cluster.nodes i).role = .leader →
      (n'.cluster.nodes i).currentTerm = (n.cluster.nodes i).currentTerm ∧
        (n'.cluster.nodes i).commitIndex < (n.cluster.nodes i).log.length) := by
  -- before the cut nothing is asked of the links
  obtain ⟨hk, hfresh⟩ := h.invariant
    (I := fun u => Known cfg u.cluster ∧ CutOff ∅ (Cluster.initial cfg) u)
    ⟨known_initial cfg, ⟨List.prefix_refl _, by simp, fun _ _ => rfl⟩,
      ⟨List.prefix_refl _, by simp, fun _ _ => rfl⟩⟩
    (fun {u v a} hu hC hs => by
      refine ⟨?_, cutOff_step hu.1 hu.2 (by simp [Transport.Severed]) hs⟩
      rcases Network.step_cases hs with ⟨b, s', rfl, -, hs', rfl⟩ | hsame
      · exact known_step hu.1 (plain_of_noSnapshot hterms hC) hs'
      · rw [hsame]
        exact hu.1)
  obtain ⟨cs, hrun⟩ := Network.run_cluster id h
  have habs := refine_run (plain_run hterms hrun)
  have hend := h'.invariant (I := Isolated cfg S n.cluster)
    ⟨hk, ⟨hfresh.votes.here _, hfresh.appends.here _⟩, List.Subset.refl _, unvoted_self hk,
      fun huniq => by
        obtain ⟨A, hi, hA⟩ := habs huniq
        exact unheard_self hk hi hA⟩
    (fun hu hC hs => isolated_step hterms hS hk habs hu hC hs)
  have hterm : ∀ i ∈ S, ∀ T L, Event.becameLeader i T L ∈ n'.cluster.history →
      T ≤ (n.cluster.nodes i).currentTerm := by
    intro i hi T L hev
    obtain ⟨F, hF, hvotes⟩ := hend.known.wired.ballots.won i T L hev
    obtain ⟨q, hqF, hq⟩ := hF.exists_notMem hS
    exact hend.unvoted i hi q hq T (hvotes q hqF)
  refine ⟨hterm, fun huniq i hi hl hl' => ?_⟩
  obtain ⟨L, hL⟩ := hend.known.polls.leader i hl'
  obtain ⟨M, hM⟩ := hk.polls.leader i hl
  have hpast := (hend.known.wired.ballots.past i _ M (hend.grown hM)).1
  have hsame := le_antisymm (hterm i hi _ L hL) hpast
  exact ⟨hsame, (hend.unheard huniq).commit i hi hl hl' hsame⟩

/-- The members are registered, and `A` wins the first term. -/
def islandBefore : List (NetAction MemTransport.Op) :=
  [.op (.register [65]), .op (.register [66]), .op (.register [67]),
   .raft (.startElection [65]), .admitVote 0, .findVote 0, .raft (.deliverVote 0),
   .raft (.voteReply 0), .op (.partition [65] [66]), .op (.partition [65] [67])]

/-- `A` takes a command, which nobody hears of, and `B` is elected. -/
def islandAfter : List (NetAction MemTransport.Op) :=
  [.raft (.propose [65] (some [7])), .admitAppend 2, .admitAppend 3,
   .raft (.startElection [66]), .admitVote 3, .findVote 3, .raft (.deliverVote 3),
   .raft (.voteReply 3), .raft (.heartbeat [65])]

def islandCut : Network MemTransport :=
  Foundation.endState (Network.step MemTransport.transport triple) Network.Unsnapped
    (Network.initial triple MemTransport.new) islandBefore

def islandEnd : Network MemTransport :=
  Foundation.endState (Network.step MemTransport.transport triple)
    (CutAway MemTransport.transport triple {[65]}) islandCut islandAfter

/-- `A` still leads term `1` at the end, with a command that it has not committed, and `B`
leads term `2`. -/
theorem isolated_minority_island :
    (islandEnd.cluster.nodes [65]).role = .leader ∧
      (islandEnd.cluster.nodes [65]).log = [sentinel, ⟨1, some [7]⟩] ∧
      (islandEnd.cluster.nodes [65]).commitIndex < 1 ∧
      (islandEnd.cluster.nodes [66]).role = .leader := by
  have hl : (islandEnd.cluster.nodes [65]).role = .leader := by decide +kernel
  have hbefore : Run (Network.step MemTransport.transport triple) Network.Unsnapped
      (Network.initial triple MemTransport.new) islandBefore islandCut :=
    Foundation.run_endState (by decide +kernel)
  have hafter : Run (Network.step MemTransport.transport triple)
      (CutAway MemTransport.transport triple {[65]}) islandCut islandAfter islandEnd :=
    Foundation.run_endState (by decide +kernel)
  obtain ⟨-, hlead⟩ := isolated_minority (fun _ => rfl) (by decide) hbefore hafter
  have hcommit := (hlead (by decide +kernel) [65] (by decide) (by decide +kernel) hl).2
  have hlog : (islandCut.cluster.nodes [65]).log.length = 1 := by decide +kernel
  rw [hlog] at hcommit
  exact ⟨hl, by decide +kernel, hcommit, by decide +kernel⟩

end Minorities

end KVEngine.Raft
