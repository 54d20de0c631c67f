import KVEngine.Raft.Winning

/-!
# A majority can always go on

In every state that a run without snapshots and with one leader a term reaches, the
members in any majority can, by themselves, elect a leader among themselves, commit a
command behind everything that was ever delivered, and deliver it (`never_wedged`).
The others may be down or cut off, with their messages underway or lost, and whatever
the majority has been doing so far: elections under way, diverging logs, apply loops
asleep or in the middle of a send.

So no reachable state is a dead end. Whether a cluster does go on is up to its timers,
which are not modelled.
-/

namespace KVEngine.Raft

open Foundation (Run)
open Foundation.ReplicatedLog

/-! ## §1  Catching up -/

/-- What a completed round leaves of leader `n` and peer `m`. -/
structure Round (p : NodeId) (n m n' m' : Node) : Prop where
  role : n'.role = .leader
  term : n'.currentTerm = n.currentTerm
  log : n'.log = n.log
  matched : ∀ q, n.matchIndex q ≤ n'.matchIndex q
  applied : n'.lastApplied = n.lastApplied
  peerTerm : m'.currentTerm = n.currentTerm
  peerApplied : m'.lastApplied = m.lastApplied

theorem Node.recordMatch_ge (n : Node) (p q : NodeId) (args : AppendEntriesArgs) :
    n.matchIndex q ≤ (n.recordMatch p args).matchIndex q := by
  show n.matchIndex q ≤ Function.update n.matchIndex p _ q
  by_cases hq : q = p
  · subst hq
    rw [Function.update_self]
    split <;> omega
  · rw [Function.update_of_ne hq]

section Rounds

variable {p : NodeId} {n m n' m' : Node} {ok : Bool}

/-- **A round**, and what an acceptance adds: the leader knows what the peer has, and
the peer what the leader has committed. -/
theorem exchange_round (hl : n.role = .leader) (hterm : m.currentTerm ≤ n.currentTerm)
    (hcommit : n.commitIndex < n.log.length) (hx : exchange p n m = some (n', m', ok)) :
    Round p n m n' m' ∧ (ok = true → n'.nextIndex p = n'.matchIndex p + 1 ∧
      n.commitIndex ≤ m'.commitIndex) := by
  obtain ⟨call, hcall, hx⟩ := Option.bind_eq_some_iff.mp hx
  obtain ⟨⟨m₁, reply⟩, hm, hx⟩ := Option.bind_eq_some_iff.mp hx
  obtain ⟨⟨n₁, calls⟩, hn, hx⟩ := Option.bind_eq_some_iff.mp hx
  cases hx
  obtain ⟨prev, hprev, -, -, -, hargs, -, hentries, hleader⟩ := Node.sendAppendEntries_some hcall
  have hle : m.currentTerm ≤ call.args.term := hargs ▸ hterm
  have hlast : call.args.prevLogIndex + call.args.entries.length = n.log.length - 1 := by
    have hlt := (List.getElem?_eq_some_iff.mp hprev).1
    rw [hentries, List.length_drop]
    omega
  have hpeer : reply.term = n.currentTerm ∧ m'.currentTerm = n.currentTerm ∧
      m'.lastApplied = m.lastApplied ∧
      (reply.success = true → n.commitIndex ≤ m'.commitIndex) := by
    have happlied := (Notifies.handleAppendEntries hm).lastApplied
    rcases Node.handleAppendEntries_cases hm with ⟨hlt, -⟩ |
      ⟨-, ⟨-, rfl, rfl⟩ | ⟨_, -, ⟨-, rfl, rfl⟩ | ⟨-, rfl, -, hreply⟩⟩⟩
    · exact absurd hlt (not_lt.mpr hle)
    · exact ⟨hargs, hargs, happlied, nofun⟩
    · exact ⟨hargs, hargs, happlied, nofun⟩
    · have hmerged := Node.merged_currentTerm Cluster.persistOk m call.args
      refine ⟨(hreply.trans hmerged).trans hargs, hmerged.trans hargs, happlied, fun _ => ?_⟩
      have hci := Node.merged_commitIndex Cluster.persistOk m call.args
      rw [Node.merged] at hci
      rw [hci, hleader, AppendEntriesArgs.last, hlast]
      split <;> omega
  obtain ⟨hreply, hpterm, hpapplied, hpcommit⟩ := hpeer
  have happlied := (Notifies.handleAppendReply hn).lastApplied
  rw [Node.handleAppendReply, if_neg (by omega), if_neg (by simp [hl, hargs])] at hn
  split at hn
  · rename_i hsucc
    cases hn
    obtain ⟨c, b, heq⟩ := Node.maybeAdvance_eq (n.recordMatch p call.args)
    refine ⟨⟨?_, ?_, ?_, fun q => ?_, happlied, hpterm, hpapplied⟩, fun _ => ⟨?_, hpcommit hsucc⟩⟩
    · rw [heq]; exact hl
    · rw [heq]; rfl
    · rw [heq]; rfl
    · rw [heq]; exact n.recordMatch_ge p q call.args
    · rw [heq]
      show Function.update n.nextIndex p _ p = Function.update n.matchIndex p _ p + 1
      rw [Function.update_self, Function.update_self]
  · rename_i hrej
    obtain ⟨call', -, hn⟩ := Option.bind_eq_some_iff.mp hn
    cases hn
    exact ⟨⟨hl, rfl, rfl, fun q => le_rfl, rfl, hpterm, hpapplied⟩, fun h => absurd h hrej⟩

end Rounds

/-- The leader `i` goes on leading with the log it has while it talks to peers in `ps`. -/
structure StaysLeader (i : NodeId) (ps : List NodeId) (s t : Cluster) : Prop where
  role : (t.nodes i).role = .leader
  term : (t.nodes i).currentTerm = (s.nodes i).currentTerm
  log : (t.nodes i).log = (s.nodes i).log
  matched : ∀ q, (s.nodes i).matchIndex q ≤ (t.nodes i).matchIndex q
  applied : ∀ j, (t.nodes j).lastApplied = (s.nodes j).lastApplied
  behind : ∀ j, (s.nodes j).currentTerm ≤ (s.nodes i).currentTerm →
    (t.nodes j).currentTerm ≤ (s.nodes i).currentTerm
  others : ∀ j, j ≠ i → j ∉ ps → t.nodes j = s.nodes j

/-- Peer `p` has the log of leader `i`, the leader knows, and `p` knows that `c` entries
are committed. -/
structure Has (i p : NodeId) (c : ℕ) (s : Cluster) : Prop where
  log : ∀ k < (s.nodes i).log.length, (s.nodes p).log[k]? = (s.nodes i).log[k]?
  matched : (s.nodes i).log.length ≤ (s.nodes i).matchIndex p + 1
  commit : c ≤ (s.nodes p).commitIndex

section Spreading

variable {cfg : Config} {F : Finset NodeId} {s t u : Cluster} {i p : NodeId} {ps qs : List NodeId}

theorem StaysLeader.refl (hl : (s.nodes i).role = .leader) : StaysLeader i ps s s :=
  ⟨hl, rfl, rfl, fun _ => le_rfl, fun _ => rfl, fun _ h => h, fun _ _ _ => rfl⟩

theorem StaysLeader.trans (h : StaysLeader i ps s t) (h' : StaysLeader i qs t u) :
    StaysLeader i (ps ++ qs) s u where
  role := h'.role
  term := h'.term.trans h.term
  log := h'.log.trans h.log
  matched := fun q => (h.matched q).trans (h'.matched q)
  applied := fun j => (h'.applied j).trans (h.applied j)
  behind := by
    intro j hj
    have := h'.behind j (h.term ▸ h.behind j hj)
    rwa [h.term] at this
  others := by
    intro j hj hmem
    rw [List.mem_append, not_or] at hmem
    rw [h'.others j hj hmem.2, h.others j hj hmem.1]

theorem StaysLeader.mono (h : StaysLeader i ps s t) (hsub : ps ⊆ qs) : StaysLeader i qs s t :=
  { h with others := fun j hj hmem => h.others j hj fun hps => hmem (hsub hps) }

/-- A round of the leader. -/
theorem StaysLeader.of_round {n m : Node} (hne : p ≠ i)
    (hnodes : t.nodes = Function.update (Function.update s.nodes p m) i n)
    (h : Round p (s.nodes i) (s.nodes p) n m) : StaysLeader i [p] s t := by
  have hi : t.nodes i = n := by rw [hnodes, Function.update_self]
  have hp : t.nodes p = m := by
    rw [hnodes, Function.update_of_ne hne, Function.update_self]
  have hother : ∀ j, j ≠ i → j ∉ [p] → t.nodes j = s.nodes j := by
    intro j hj hmem
    rw [hnodes, Function.update_of_ne hj, Function.update_of_ne (by simpa using hmem)]
  refine ⟨hi ▸ h.role, hi ▸ h.term, hi ▸ h.log, fun q => hi ▸ h.matched q, fun j => ?_,
    fun j hj => ?_, hother⟩
  · by_cases hji : j = i
    · rw [hji, hi, h.applied]
    · by_cases hjp : j = p
      · rw [hjp, hp, h.peerApplied]
      · rw [hother j hji (by simpa using hjp)]
  · by_cases hji : j = i
    · rw [hji, hi, h.term]
    · by_cases hjp : j = p
      · rw [hjp, hp, h.peerTerm]
      · rwa [hother j hji (by simpa using hjp)]

/-- **Catching up.** The leader and one peer reach a state in which the peer has the
leader's log. Each rejection takes `nextIndex` back, which bounds their number. -/
theorem Standing.catchUp (hterms : ∀ t, cfg.incr t = t + 1) (hi : i ∈ cfg.ids) (hiF : i ∈ F)
    (hpF : p ∈ F) (hp : p ∈ cfg.peers i) (h : Standing cfg s)
    (hl : (s.nodes i).role = .leader)
    (hterm : (s.nodes p).currentTerm ≤ (s.nodes i).currentTerm) :
    ∃ t, Path cfg F s t ∧ Standing cfg t ∧ StaysLeader i [p] s t ∧
      Has i p (s.nodes i).commitIndex t := by
  have hne : p ≠ i := ((cfg.mem_peers i hi p).mp hp).2
  induction hk : (s.nodes i).nextIndex p using Nat.strong_induction_on generalizing s with
  | _ k ih =>
      obtain ⟨A, hfacts⟩ := h.facts hterms
      have hpeer : p ∈ (s.nodes i).peers := (hfacts.wired.sound i).peers ▸ hp
      have hmeet := meeting_of_inv hfacts.wired hfacts.inv hfacts.abs hl hterm
        (hfacts.bounded.next i hl p hpeer) ((hfacts.orderly.leading i hl).next p hpeer)
      have hcommit := commitIndex_lt hfacts.wired hfacts.inv hfacts.abs i
      rcases round_cases (comparable_logs hfacts.inv hfacts.abs i p) hmeet with
        ⟨n, m, hx, -, hback⟩ | ⟨n, m, hx, hcaught⟩
      · obtain ⟨hround, -⟩ := exchange_round hl hterm hcommit hx
        obtain ⟨u, hpath, hstand, hnodes⟩ := h.round hterms hi hiF hpF hp hl hx
        have hleads := StaysLeader.of_round hne hnodes hround
        have hni : u.nodes i = n := by rw [hnodes, Function.update_self]
        obtain ⟨t, hpath', hstand', hleads', hhas⟩ := ih _ (hk ▸ hback) hstand hleads.role
          (hleads.term.symm ▸ hleads.behind p hterm) (by rw [hni])
        refine ⟨t, hpath.trans hpath', hstand', (hleads.trans hleads').mono (by simp), ?_⟩
        exact { hhas with commit := (h.commit_le hterms hstand hpath i).trans hhas.commit }
      · obtain ⟨hround, hacc⟩ := exchange_round hl hterm hcommit hx
        obtain ⟨hnext, hpcommit⟩ := hacc rfl
        obtain ⟨t, hpath, hstand, hnodes⟩ := h.round hterms hi hiF hpF hp hl hx
        have hleads := StaysLeader.of_round hne hnodes hround
        have hni : t.nodes i = n := by rw [hnodes, Function.update_self]
        have hnp : t.nodes p = m := by
          rw [hnodes, Function.update_of_ne hne, Function.update_self]
        refine ⟨t, hpath, hstand, hleads, ?_, ?_, hnp ▸ hpcommit⟩
        · rw [hleads.log, hnp]
          exact hcaught.log
        · rw [hleads.log, hni, ← hnext, hcaught.next]

/-- **Spreading the log** to several peers, one after the other. -/
theorem Standing.spread (hterms : ∀ t, cfg.incr t = t + 1) (hi : i ∈ cfg.ids) (hiF : i ∈ F)
    (h : Standing cfg s) (hl : (s.nodes i).role = .leader)
    (hps : ∀ p ∈ ps, p ∈ F ∧ p ∈ cfg.peers i ∧
      (s.nodes p).currentTerm ≤ (s.nodes i).currentTerm) :
    ∃ t, Path cfg F s t ∧ Standing cfg t ∧ StaysLeader i ps s t ∧
      ∀ p ∈ ps, Has i p (s.nodes i).commitIndex t := by
  induction ps generalizing s with
  | nil => exact ⟨s, .refl s, h, .refl hl, fun p hp => absurd hp List.not_mem_nil⟩
  | cons p ps ih =>
      obtain ⟨hpF, hp, hterm⟩ := hps p List.mem_cons_self
      obtain ⟨u, hpath, hstand, hleads, hhas⟩ := h.catchUp hterms hi hiF hpF hp hl hterm
      obtain ⟨t, hpath', hstand', hleads', hall⟩ := ih hstand hleads.role fun q hq => by
        obtain ⟨hqF, hq', hqterm⟩ := hps q (List.mem_cons_of_mem p hq)
        exact ⟨hqF, hq', hleads.term.symm ▸ hleads.behind q hqterm⟩
      refine ⟨t, hpath.trans hpath', hstand', hleads.trans hleads', fun q hq => ?_⟩
      by_cases hqs : q ∈ ps
      · have hlater := hall q hqs
        exact { hlater with commit := (h.commit_le hterms hstand hpath i).trans hlater.commit }
      · -- `p` is left alone from now on
        obtain rfl := (List.mem_cons.mp hq).resolve_right hqs
        have hne : q ≠ i := ((cfg.mem_peers i hi q).mp hp).2
        refine ⟨?_, ?_, ?_⟩
        · rw [hleads'.log, hleads'.others q hne hqs]
          exact hhas.log
        · rw [hleads'.log]
          exact hhas.matched.trans (Nat.add_le_add_right (hleads'.matched q) 1)
        · rw [hleads'.others q hne hqs]
          exact hhas.commit

end Spreading

/-! ## §2  Committing -/

section Committing

variable {cfg : Config} {F : Finset NodeId} {s : Cluster} {i : NodeId}

/-- A leader takes a command. -/
theorem Standing.propose (hterms : ∀ t, cfg.incr t = t + 1) (h : Standing cfg s)
    (hi : i ∈ cfg.ids) (hiF : i ∈ F) (hl : (s.nodes i).role = .leader) (command : Option Bytes) :
    ∃ t, Path cfg F s t ∧ Standing cfg t ∧
      t.nodes = Function.update s.nodes i ((s.nodes i).appendCommand true command) := by
  obtain ⟨t, ht, hstand, hpath⟩ :=
    h.perform hterms (F := F) (a := .propose i command) hi hiF nofun
  obtain ⟨-, ht'⟩ := Foundation.guard_bind_eq_some ht
  obtain ⟨⟨n, calls, idx, term, isLeader⟩, hn, ht'⟩ := Option.bind_eq_some_iff.mp ht'
  cases ht'
  rcases Node.propose_cases hn with ⟨hno, -⟩ | ⟨-, rfl, -⟩
  · exact absurd hl hno
  · exact ⟨_, hpath, hstand, rfl⟩

/-- An entry of its own term that all of `F` have is committed by the leader. -/
theorem Standing.committed (hterms : ∀ t, cfg.incr t = t + 1) (hF : Majority cfg F) (hi : i ∈ F)
    (h : Standing cfg s) (hl : (s.nodes i).role = .leader) {idx c : ℕ}
    (hidx : (s.nodes i).log[idx]?.map LogEntry.term = some (s.nodes i).currentTerm)
    (hhas : ∀ p ∈ (F.erase i).toList, Has i p c s) : idx ≤ (s.nodes i).commitIndex := by
  obtain ⟨A, hfacts⟩ := h.facts hterms
  refine (hfacts.orderly.leading i hl).settled idx hidx ?_
  obtain ⟨x, hx, -⟩ := Option.map_eq_some_iff.mp hidx
  have hlt := (List.getElem?_eq_some_iff.mp hx).1
  have hmem := hF.member i hi
  have hsub : F.erase i ⊆
      ((s.nodes i).peers.filter fun p => (s.nodes i).matchIndex p ≥ idx).toFinset := by
    intro p hp
    have hmatch := (hhas p (Finset.mem_toList.mpr hp)).matched
    obtain ⟨hpi, hpF⟩ := Finset.mem_erase.mp hp
    rw [List.mem_toFinset, List.mem_filter, (hfacts.wired.sound i).peers,
      cfg.mem_peers i hmem]
    exact ⟨⟨hF.member p hpF, hpi⟩, by simp only [ge_iff_le, decide_eq_true_eq]; omega⟩
  have hcount := (Finset.card_le_card hsub).trans (List.toFinset_card_le _)
  have hcard := hF.card
  have herase := Finset.card_erase_add_one hi
  rw [cfg.length_ids hmem] at hcard
  rw [Node.matchCount, (hfacts.wired.sound i).peers] at *
  omega

end Committing

/-! ## §3  Applying -/

/-- Only the apply loop has moved. -/
structure Unmoved (n n' : Node) : Prop where
  log : n'.log = n.log
  role : n'.role = n.role
  term : n'.currentTerm = n.currentTerm
  commit : n'.commitIndex = n.commitIndex

section Applying

variable {cfg : Config} {F : Finset NodeId} {s t : Cluster} {i j : NodeId}

theorem Unmoved.trans {n m n' : Node} (h : Unmoved n m) (h' : Unmoved m n') : Unmoved n n' :=
  ⟨h'.log.trans h.log, h'.role.trans h.role, h'.term.trans h.term, h'.commit.trans h.commit⟩

/-- The loop does not sleep over a commit. -/
theorem Standing.wakes (hterms : ∀ t, cfg.incr t = t + 1) (h : Standing cfg s) (j : NodeId)
    (hpc : (s.nodes j).applyPc = .parked)
    (hlt : (s.nodes j).lastApplied < (s.nodes j).commitIndex) :
    (s.nodes j).commitNotify = true := by
  obtain ⟨as, has⟩ := h.reached
  obtain ⟨b, hb, rfl⟩ := Broadcast.exists_run has
  have hidle := ((Broadcast.keeps_run hterms hb).loops j).idle hpc
  by_contra htoken
  exact absurd (hidle (Bool.eq_false_iff.mpr htoken)) (not_le.mpr hlt)

/-- Whatever it is doing, the loop comes to test for another entry. -/
theorem Standing.toLooping (hterms : ∀ t, cfg.incr t = t + 1) (h : Standing cfg s)
    (hj : j ∈ cfg.ids) (hjF : j ∈ F)
    (hlt : (s.nodes j).lastApplied < (s.nodes j).commitIndex) :
    ∃ t n, Path cfg F s t ∧ Standing cfg t ∧ t.nodes = Function.update s.nodes j n ∧
      Unmoved (s.nodes j) n ∧ n.applyPc = .looping ∧
      n.lastApplied = (s.nodes j).lastApplied := by
  cases hpc : (s.nodes j).applyPc with
  | parked =>
      obtain ⟨t, ht, hstand, hpath⟩ := h.perform hterms (F := F) (a := .applyWake j)
        ⟨hj, hpc, h.wakes hterms j hpc hlt⟩ hjF nofun
      rw [Cluster.applyWake_some ht] at hpath hstand
      exact ⟨_, _, hpath, hstand, rfl, ⟨rfl, rfl, rfl, rfl⟩, rfl, rfl⟩
  | looping =>
      exact ⟨s, s.nodes j, .refl s, h, (Function.update_eq_self j s.nodes).symm,
        ⟨rfl, rfl, rfl, rfl⟩, hpc, rfl⟩
  | sending msg =>
      obtain ⟨t, ht, hstand, hpath⟩ := h.perform hterms (F := F) (a := .applySend j)
        ⟨hj, msg, hpc⟩ hjF nofun
      obtain ⟨msg', -, rfl⟩ := Cluster.applySend_some ht
      exact ⟨_, _, hpath, hstand, rfl, ⟨rfl, rfl, rfl, rfl⟩, rfl, rfl⟩

/-- The loop takes the next entry. -/
theorem Standing.take (hterms : ∀ t, cfg.incr t = t + 1) (h : Standing cfg s)
    (hj : j ∈ cfg.ids) (hjF : j ∈ F) (hpc : (s.nodes j).applyPc = .looping)
    (hlt : (s.nodes j).lastApplied < (s.nodes j).commitIndex) :
    ∃ t n, Path cfg F s t ∧ Standing cfg t ∧ t.nodes = Function.update s.nodes j n ∧
      Unmoved (s.nodes j) n ∧ n.lastApplied = (s.nodes j).lastApplied + 1 ∧
      ∀ e, (s.nodes j).log[(s.nodes j).lastApplied + 1]? = some e →
        n.outgoing = e.message ((s.nodes j).lastApplied + 1) := by
  obtain ⟨t, ht, hstand, hpath⟩ :=
    h.perform hterms (F := F) (a := .applyTake j) ⟨hj, hpc⟩ hjF nofun
  obtain ⟨-, ht'⟩ := Foundation.guard_bind_eq_some ht
  obtain ⟨n, hn, ht'⟩ := Option.bind_eq_some_iff.mp ht'
  cases ht'
  obtain ⟨-, ⟨e, pc, -, he, rfl, -, hout⟩ | ⟨hge, -⟩⟩ := applyTake_outgoing hn
  · refine ⟨_, _, hpath, hstand, rfl, ⟨rfl, rfl, rfl, rfl⟩, rfl, fun e' he' => ?_⟩
    cases he.symm.trans he'
    exact hout
  · omega

/-- **Applying.** The loop of `j` gets to a committed entry and delivers its command. -/
theorem Standing.deliver (hterms : ∀ t, cfg.incr t = t + 1) (hj : j ∈ cfg.ids) (hjF : j ∈ F)
    {idx T : ℕ} {c : Bytes} (h : Standing cfg s) (hidx : idx ≤ (s.nodes j).commitIndex)
    (hlt : (s.nodes j).lastApplied < idx) (hlog : (s.nodes j).log[idx]? = some ⟨T, some c⟩) :
    ∃ t n, Path cfg F s t ∧ Standing cfg t ∧ t.nodes = Function.update s.nodes j n ∧
      Unmoved (s.nodes j) n ∧ Event.delivered j ⟨idx, c⟩ ∈ t.history := by
  induction hd : idx - (s.nodes j).lastApplied generalizing s with
  | zero => omega
  | succ d ih =>
      obtain ⟨u, n, hpath, hstand, hnodes, hsame, hpc, hlast⟩ :=
        h.toLooping hterms hj hjF (hlt.trans_le hidx)
      have hself : u.nodes j = n := by rw [hnodes, Function.update_self]
      obtain ⟨v, m, hpath', hstand', hnodes', hsame', hlast', hout⟩ :=
        hstand.take hterms hj hjF (hself ▸ hpc) (by rw [hself, hlast, hsame.commit]; omega)
      rw [hself] at hsame' hlast' hout
      rw [hlast] at hlast' hout
      have hself' : v.nodes j = m := by rw [hnodes', Function.update_self]
      have hall := hsame.trans hsame'
      have hnodes'' : v.nodes = Function.update s.nodes j m := by
        rw [hnodes', hnodes, Function.update_idem]
      by_cases hnext : (s.nodes j).lastApplied + 1 = idx
      · -- the entry itself has been taken: its message goes out
        have hsending : m.applyPc = .sending ⟨idx, c⟩ := by
          have hmsg := hout ⟨T, some c⟩ (by rw [hsame.log, hnext, hlog])
          rw [hnext] at hmsg
          unfold Node.outgoing at hmsg
          split at hmsg
          · rename_i msg hpc'
            rw [hpc', List.singleton_inj.mp hmsg]
          · cases hmsg
          · cases hmsg
        obtain ⟨t, ht, hstand'', hpath''⟩ := hstand'.perform hterms (F := F) (a := .applySend j)
          ⟨hj, _, hself' ▸ hsending⟩ hjF nofun
        obtain ⟨msg, hmsg, rfl⟩ := Cluster.applySend_some ht
        rw [hself', hsending] at hmsg
        cases hmsg
        refine ⟨_, { m with applyPc := .looping }, (hpath.trans hpath').trans hpath'', hstand'',
          ?_, hall.trans ⟨rfl, rfl, rfl, rfl⟩, List.mem_cons_self⟩
        show Function.update v.nodes j _ = _
        rw [hself', hnodes'', Function.update_idem]
      · obtain ⟨t, n', hpath'', hstand'', hnodes₃, hsame'', hdel⟩ := ih hstand'
          (by rw [hself', hall.commit]; exact hidx) (by rw [hself']; omega)
          (by rw [hself', hall.log, hlog]) (by rw [hself']; omega)
        rw [hself'] at hsame''
        refine ⟨t, n', (hpath.trans hpath').trans hpath'', hstand'', ?_, hall.trans hsame'', hdel⟩
        rw [hnodes₃, hnodes'', Function.update_idem]

/-- The loops of several members, one after the other. -/
theorem Standing.deliverAll (hterms : ∀ t, cfg.incr t = t + 1) {idx T : ℕ} {c : Bytes}
    {js : List NodeId} (hnodup : js.Nodup) (h : Standing cfg s)
    (hjs : ∀ j ∈ js, j ∈ cfg.ids ∧ j ∈ F ∧ idx ≤ (s.nodes j).commitIndex ∧
      (s.nodes j).lastApplied < idx ∧ (s.nodes j).log[idx]? = some ⟨T, some c⟩) :
    ∃ t, Path cfg F s t ∧ Standing cfg t ∧ (∀ j, Unmoved (s.nodes j) (t.nodes j)) ∧
      ∀ j ∈ js, Event.delivered j ⟨idx, c⟩ ∈ t.history := by
  induction js generalizing s with
  | nil =>
      exact ⟨s, .refl s, h, fun _ => ⟨rfl, rfl, rfl, rfl⟩, fun _ hj => absurd hj List.not_mem_nil⟩
  | cons k js ih =>
      obtain ⟨hk, hnodup'⟩ := List.nodup_cons.mp hnodup
      obtain ⟨hids, hkF, hidx, hlt, hlog⟩ := hjs k List.mem_cons_self
      obtain ⟨u, n, hpath, hstand, hnodes, hsame, hdel⟩ := h.deliver hterms hids hkF hidx hlt hlog
      have hother : ∀ j, j ≠ k → u.nodes j = s.nodes j := fun j hj => by
        rw [hnodes, Function.update_of_ne hj]
      have hunmoved : ∀ j, Unmoved (s.nodes j) (u.nodes j) := by
        intro j
        by_cases hjk : j = k
        · rw [hjk, hnodes, Function.update_self]
          exact hsame
        · rw [hother j hjk]
          exact ⟨rfl, rfl, rfl, rfl⟩
      obtain ⟨t, hpath', hstand', hunmoved', hall⟩ := ih hnodup' hstand fun j hj => by
        rw [hother j (ne_of_mem_of_not_mem hj hk)]
        exact hjs j (List.mem_cons_of_mem k hj)
      refine ⟨t, hpath.trans hpath', hstand', fun j => (hunmoved j).trans (hunmoved' j), ?_⟩
      rintro j (_ | ⟨_, hj⟩)
      · exact hpath'.history hdel
      · exact hall j hj

end Applying

/-! ## §4  Going on -/

section Going

variable {cfg : Config} {as : List Action} {F : Finset NodeId} {s : Cluster} {i : NodeId}

/-- What is safe is in the log of a leader whose term nobody in a majority exceeds: a
member of the majority had a part in committing it. -/
theorem Standing.safe_lt (hF : Majority cfg F) {A : State NodeId LogEntry} (hfacts : Facts cfg s A)
    (hl : (s.nodes i).role = .leader)
    (hterm : ∀ q ∈ F, (s.nodes q).currentTerm ≤ (s.nodes i).currentTerm) {P : List LogEntry}
    {U : ℕ} (hsafe : Safe (params cfg) A P U) : P.length ≤ (s.nodes i).log.length := by
  obtain ⟨T, k, -, hcom, hP⟩ := hsafe
  obtain ⟨-, Q, ⟨G, hG, hGQ⟩, hacc⟩ := id hcom
  obtain ⟨q, hqF, hqG⟩ := hF.inter hG
  obtain ⟨m, -, hm⟩ := hacc q (hGQ q hqG)
  have hT : T ≤ (s.nodes i).currentTerm := by
    have hle := (hfacts.inv.accepted q T m hm).1
    rw [hfacts.abs.term] at hle
    exact hle.trans (hterm q hqF)
  obtain ⟨⟨L, hL⟩, -⟩ := hfacts.inv.leader i ((hfacts.abs.role i).trans hl)
  rw [hfacts.abs.term] at hL
  have hsafe' : Safe (params cfg) A P (s.nodes i).currentTerm := ⟨T, k, hT, hcom, hP⟩
  have hpre := hsafe'.isPrefix hfacts.inv (le_refl _) hL
  rw [leaderLog_eq hfacts.inv hfacts.abs hl] at hpre
  exact hpre.length_le

/-- Everything delivered, and everything committed by a member, is in the leader's log. -/
theorem Standing.behind (hterms : ∀ t, cfg.incr t = t + 1) (hF : Majority cfg F)
    (h : Standing cfg s) (hl : (s.nodes i).role = .leader)
    (hterm : ∀ q ∈ F, (s.nodes q).currentTerm ≤ (s.nodes i).currentTerm) :
    (∀ j msg, Event.delivered j msg ∈ s.history → msg.commandIndex < (s.nodes i).log.length) ∧
      ∀ j, (s.nodes j).commitIndex < (s.nodes i).log.length := by
  obtain ⟨A, hfacts⟩ := h.facts hterms
  constructor
  · intro j msg hdel
    obtain ⟨e, htaken, -⟩ := hfacts.wired.applied.delivered j msg hdel
    obtain ⟨P, U, hsafe, hPk⟩ := hfacts.inv.delivered _ _ (hfacts.abs.ledger _ htaken)
    exact (List.getElem?_eq_some_iff.mp hPk).1.trans_le (safe_lt hF hfacts hl hterm hsafe)
  · intro j
    rcases hfacts.inv.commit j with h0 | ⟨hlt, hsafe⟩
    · rw [hfacts.abs.commit] at h0
      rw [h0]
      exact (hfacts.wired.sound i).length_pos
    · have hle := safe_lt hF hfacts hl hterm hsafe
      rw [hfacts.abs.commit] at hlt hle
      rw [List.length_take] at hle
      omega

/-- A leader of the highest term takes a command, and all of `F` come to know that it is
committed. -/
theorem Standing.commitNew (hterms : ∀ t, cfg.incr t = t + 1) (hF : Majority cfg F) (hi : i ∈ F)
    (h : Standing cfg s) (hl : (s.nodes i).role = .leader)
    (hterm : ∀ q ∈ F, (s.nodes q).currentTerm ≤ (s.nodes i).currentTerm) (command : Bytes) :
    ∃ t, Path cfg F s t ∧ Standing cfg t ∧ (t.nodes i).role = .leader ∧
      (∀ j, (t.nodes j).lastApplied = (s.nodes j).lastApplied) ∧
      ∀ j ∈ F, (s.nodes i).log.length ≤ (t.nodes j).commitIndex ∧
        (t.nodes j).log[(s.nodes i).log.length]? =
          some ⟨(t.nodes i).currentTerm, some command⟩ := by
  have hmem := hF.member i hi
  obtain ⟨u, hpath₁, hstand₁, hnodes⟩ := h.propose hterms (F := F) hmem hi hl (some command)
  have hself : u.nodes i = (s.nodes i).appendCommand true (some command) := by
    rw [hnodes, Function.update_self]
  have hother : ∀ j, j ≠ i → u.nodes j = s.nodes j := fun j hj => by
    rw [hnodes, Function.update_of_ne hj]
  have hlog : (u.nodes i).log =
      (s.nodes i).log ++ [⟨(s.nodes i).currentTerm, some command⟩] := by
    rw [hself]
    rfl
  have hlead : (u.nodes i).role = .leader := by
    rw [hself]
    exact hl
  have hsameTerm : (u.nodes i).currentTerm = (s.nodes i).currentTerm := by
    rw [hself]
    rfl
  have hpeers : ∀ p ∈ (F.erase i).toList, p ∈ F ∧ p ∈ cfg.peers i ∧
      (u.nodes p).currentTerm ≤ (u.nodes i).currentTerm := by
    intro p hp
    obtain ⟨hpi, hpF⟩ := Finset.mem_erase.mp (Finset.mem_toList.mp hp)
    refine ⟨hpF, (cfg.mem_peers i hmem p).mpr ⟨hF.member p hpF, hpi⟩, ?_⟩
    rw [hother p hpi, hsameTerm]
    exact hterm p hpF
  -- the first pass spreads the entry, so that the leader commits it …
  obtain ⟨v, hpath₂, hstand₂, hstays, hhas⟩ := hstand₁.spread hterms hmem hi hlead hpeers
  have hentry : (v.nodes i).log[(s.nodes i).log.length]? =
      some ⟨(s.nodes i).currentTerm, some command⟩ := by
    rw [hstays.log, hlog, List.getElem?_concat_length]
  have hcommit : (s.nodes i).log.length ≤ (v.nodes i).commitIndex := by
    refine hstand₂.committed hterms hF hi hstays.role ?_ hhas
    rw [hentry, hstays.term, hsameTerm]
    rfl
  -- … and the second one spreads the commit index
  obtain ⟨t, hpath₃, hstand₃, hstays', hhas'⟩ := hstand₂.spread hterms hmem hi hstays.role
    fun p hp => by
      obtain ⟨hpF, hpeer, hle⟩ := hpeers p hp
      exact ⟨hpF, hpeer, hstays.term.symm ▸ hstays.behind p hle⟩
  refine ⟨t, (hpath₁.trans hpath₂).trans hpath₃, hstand₃, hstays'.role, fun j => ?_,
    fun j hj => ?_⟩
  · rw [hstays'.applied, hstays.applied]
    by_cases hji : j = i
    · rw [hji, hself]
      rfl
    · rw [hother j hji]
  · rw [hstays'.term, hstays.term, hsameTerm]
    have hentry' : (t.nodes i).log[(s.nodes i).log.length]? =
        some ⟨(s.nodes i).currentTerm, some command⟩ := by rw [hstays'.log, hentry]
    by_cases hji : j = i
    · rw [hji]
      exact ⟨hcommit.trans (hstand₂.commit_le hterms hstand₃ hpath₃ i), hentry'⟩
    · have hthere := hhas' j (Finset.mem_toList.mpr (Finset.mem_erase.mpr ⟨hji, hj⟩))
      refine ⟨hcommit.trans hthere.commit, ?_⟩
      rw [hthere.log _ (List.getElem?_eq_some_iff.mp hentry').1, hentry']

/-- **Never wedged.** From every state that a run without snapshots and with one leader a
term reaches, the members in a majority can go on by themselves, without losing the one
leader a term: one of them comes to lead, commits the command at an index beyond all
that was ever delivered, and all of them deliver it there. -/
theorem never_wedged (hterms : ∀ t, cfg.incr t = t + 1) (hsize : 2 ≤ cfg.ids.length)
    (h : Run (Cluster.step cfg) NoSnapshot (Cluster.initial cfg) as s)
    (huniq : UniqueLeaders s.history) (hF : Majority cfg F) (command : Bytes) :
    ∃ i ∈ F, ∃ bs t idx, Run (Cluster.step cfg) (Among F) s bs t ∧ UniqueLeaders t.history ∧
      (t.nodes i).role = .leader ∧
      (∀ j msg, Event.delivered j msg ∈ s.history → msg.commandIndex < idx) ∧
      ∀ j ∈ F, idx ≤ (t.nodes j).commitIndex ∧
        (t.nodes j).log[idx]? = some ⟨(t.nodes i).currentTerm, some command⟩ ∧
        Event.delivered j ⟨idx, command⟩ ∈ t.history := by
  have hstand : Standing cfg s := ⟨⟨as, h⟩, huniq⟩
  obtain ⟨i, hi, u, hpath₁, hstand₁, hl, hterm⟩ := hstand.elect hterms hF hsize
  obtain ⟨hdel, hbehind⟩ := hstand₁.behind hterms hF hl hterm
  obtain ⟨v, hpath₂, hstand₂, hl₂, happlied, hcommitted⟩ :=
    hstand₁.commitNew hterms hF hi hl hterm command
  have hready : ∀ j ∈ F.toList, j ∈ cfg.ids ∧ j ∈ F ∧
      (u.nodes i).log.length ≤ (v.nodes j).commitIndex ∧
      (v.nodes j).lastApplied < (u.nodes i).log.length ∧
      (v.nodes j).log[(u.nodes i).log.length]? =
        some ⟨(v.nodes i).currentTerm, some command⟩ := by
    intro j hj
    have hjF := Finset.mem_toList.mp hj
    obtain ⟨hcommit, hlog⟩ := hcommitted j hjF
    obtain ⟨A, hfacts⟩ := hstand₁.facts hterms
    refine ⟨hF.member j hjF, hjF, hcommit, ?_, hlog⟩
    rw [happlied]
    exact (hfacts.bounded.applied j).trans_lt (hbehind j)
  obtain ⟨t, hpath₃, hstand₃, hunmoved, hall⟩ :=
    hstand₂.deliverAll hterms (Finset.nodup_toList F) hready
  obtain ⟨bs, hbs⟩ := (hpath₁.trans hpath₂).trans hpath₃
  refine ⟨i, hi, bs, t, (u.nodes i).log.length, hbs, hstand₃.uniq, (hunmoved i).role.trans hl₂,
    fun j msg hmsg => hdel j msg (hpath₁.history hmsg), fun j hj => ?_⟩
  obtain ⟨hcommit, hlog⟩ := hcommitted j hj
  rw [(hunmoved j).commit, (hunmoved j).log, (hunmoved i).term]
  exact ⟨hcommit, hlog, hall j (Finset.mem_toList.mpr hj)⟩

/-- `A` leads and has taken a command that only `B` has; then `C` starts an election. -/
def splitActions : List Action :=
  [.startElection [65], .deliverVote 0, .voteReply 0, .propose [65] (some [7]),
   .deliverAppend 2, .startElection [67]]

/-- `B` and `C` go on without `A`. -/
theorem never_wedged_split :
    let s := Foundation.endState (Cluster.step triple) NoSnapshot (Cluster.initial triple)
      splitActions
    (s.nodes [65]).role = .leader ∧ (s.nodes [67]).role = .candidate ∧
      ∃ i ∈ ({[66], [67]} : Finset NodeId), ∃ bs t idx,
        Run (Cluster.step triple) (Among {[66], [67]}) s bs t ∧ (t.nodes i).role = .leader ∧
        ∀ j ∈ ({[66], [67]} : Finset NodeId), Event.delivered j ⟨idx, [8]⟩ ∈ t.history := by
  intro s
  have hF : Majority triple {[66], [67]} := ⟨by decide, by decide⟩
  obtain ⟨i, hi, bs, t, idx, hrun, -, hl, -, hall⟩ := never_wedged (s := s) (fun _ => rfl)
    (by decide) (Foundation.run_endState (by decide +kernel)) (by decide +kernel) hF [8]
  exact ⟨by decide +kernel, by decide +kernel, i, hi, bs, t, idx, hrun, hl,
    fun j hj => (hall j hj).2.2⟩

end Going

end KVEngine.Raft
