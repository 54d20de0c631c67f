import KVEngine.Foundation.Splice
import KVEngine.Store.Concurrent
import KVEngine.WAL.Writer

/-!
# Clients of one store

Any number of clients call `Put`, `Delete` and `Get` of one store. A write is
three atomic steps, `Append` and `Sync` under the log's mutex and the map update
under the store's; a `Get` is one. File operations may fail: the call then
returns an error and does nothing more.

The log runs ahead of the map. A crash leaves at least the durable bytes, and a
replay of them gives every record whose call has returned and the record behind
every value a `Get` has returned (`write_ahead`).

Without failures the writes are those of `Concurrent` (`run_concurrent`).
-/

namespace KVEngine.Store.Clients

open Foundation
open WAL (encode encodeBody maxBodySize framing replay Writer AppendOutcome SyncOutcome)

/-! ## §1  Steps -/

/-- What a call has done to the map or seen in it. `pos` is the place of the
call's record among the appended ones, and `seen` the places of the writes the map
had come from; the code keeps neither. -/
inductive Effect : Type where
  | wrote (c : Call) (pos : ℕ)
  | got (key : Bytes) (result : Option Bytes) (seen : List ℕ)
deriving DecidableEq

/-- Where a client is in its call, and when the call began. -/
inductive Pc (T : Type) : Type where
  | idle
  | called (start : T) (c : Call)
  | appended (start : T) (c : Call) (pos : ℕ)
  | synced (start : T) (c : Call) (pos : ℕ)
  | asked (start : T) (key : Bytes)
  | done (start : T) (e : Effect)
deriving DecidableEq

/-- A call that returned without an error. -/
structure Completed (T : Type) where
  start : T
  stop : T
  effect : Effect
deriving DecidableEq

structure System (I T : Type) where
  data : Dict Bytes Bytes
  log : Writer
  now : T
  pc : I → Pc T
  /-- The calls whose records were given to the log's writer, the places of those
  that updated the map, and the calls that returned, for stating orders. -/
  order : List Call
  applied : List ℕ
  returned : List (Completed T)

inductive Action (I T : Type) : Type where
  | tick (t : T)
  | write (i : I) (c : Call)
  | get (i : I) (key : Bytes)
  | append (i : I) (out : AppendOutcome)
  | sync (i : I) (out : SyncOutcome)
  | update (i : I)
  | read (i : I)
  | ret (i : I)
deriving DecidableEq

/-- `Open` on an empty file. -/
def initial {I T : Type} (t : T) : System I T :=
  { data := (openStore []).data, log := .openFile [], now := t, pc := fun _ => .idle,
    order := [], applied := [], returned := [] }

variable {I T : Type} [DecidableEq I] [LinearOrder T]

def step (s : System I T) : Action I T → Option (System I T)
  | .tick t => if s.now ≤ t then some { s with now := t } else none
  | .write i c =>
      match s.pc i with
      | .idle => some { s with pc := Function.update s.pc i (.called s.now c) }
      | _ => none
  | .get i key =>
      match s.pc i with
      | .idle => some { s with pc := Function.update s.pc i (.asked s.now key) }
      | _ => none
  | .append i out =>
      match s.pc i with
      | .called start c =>
          let (log, ok) := s.log.append c.record out
          some
            { s with
              log
              pc := Function.update s.pc i
                (if ok then .appended start c s.order.length else .idle)
              order := if s.log.failed then s.order else s.order ++ [c] }
      | _ => none
  | .sync i out =>
      match s.pc i with
      | .appended start c pos =>
          let (log, ok) := s.log.sync out
          some
            { s with
              log
              pc := Function.update s.pc i (if ok then .synced start c pos else .idle) }
      | _ => none
  | .update i =>
      match s.pc i with
      | .synced start c pos => some
          { s with
            data := c.write.apply s.data
            pc := Function.update s.pc i (.done start (.wrote c pos))
            applied := s.applied ++ [pos] }
      | _ => none
  | .read i =>
      match s.pc i with
      | .asked start key => some
          { s with
            pc := Function.update s.pc i (.done start (.got key (s.data.lookup key) s.applied)) }
      | _ => none
  | .ret i =>
      match s.pc i with
      | .done start e => some
          { s with
            pc := Function.update s.pc i .idle
            returned := s.returned ++ [⟨start, s.now, e⟩] }
      | _ => none

/-- What a step can do. -/
inductive Does (s : System I T) : Action I T → System I T → Prop where
  | tick {t : T} (hle : s.now ≤ t) : Does s (.tick t) { s with now := t }
  | write {i : I} (c : Call) (hpc : s.pc i = .idle) :
      Does s (.write i c) { s with pc := Function.update s.pc i (.called s.now c) }
  | get {i : I} (key : Bytes) (hpc : s.pc i = .idle) :
      Does s (.get i key) { s with pc := Function.update s.pc i (.asked s.now key) }
  | append {i : I} {start : T} {c : Call} {out : AppendOutcome} {log : Writer} {ok : Bool}
      (hpc : s.pc i = .called start c) (hlog : s.log.append c.record out = (log, ok)) :
      Does s (.append i out)
        { s with
          log
          pc := Function.update s.pc i (if ok then .appended start c s.order.length else .idle)
          order := if s.log.failed then s.order else s.order ++ [c] }
  | sync {i : I} {start : T} {c : Call} {pos : ℕ} {out : SyncOutcome} {log : Writer} {ok : Bool}
      (hpc : s.pc i = .appended start c pos) (hlog : s.log.sync out = (log, ok)) :
      Does s (.sync i out)
        { s with
          log
          pc := Function.update s.pc i (if ok then .synced start c pos else .idle) }
  | update {i : I} {start : T} {c : Call} {pos : ℕ} (hpc : s.pc i = .synced start c pos) :
      Does s (.update i)
        { s with
          data := c.write.apply s.data
          pc := Function.update s.pc i (.done start (.wrote c pos))
          applied := s.applied ++ [pos] }
  | read {i : I} {start : T} {key : Bytes} (hpc : s.pc i = .asked start key) :
      Does s (.read i)
        { s with
          pc := Function.update s.pc i (.done start (.got key (s.data.lookup key) s.applied)) }
  | ret {i : I} {start : T} {e : Effect} (hpc : s.pc i = .done start e) :
      Does s (.ret i)
        { s with
          pc := Function.update s.pc i .idle
          returned := s.returned ++ [⟨start, s.now, e⟩] }

theorem step_does {s s' : System I T} {a : Action I T} (h : step s a = some s') : Does s a s' := by
  cases a with
  | tick t =>
      rw [step] at h
      split at h
      · rename_i hle
        cases h
        exact .tick hle
      · cases h
  | write i c =>
      rw [step] at h
      split at h
      · rename_i hpc
        cases h
        exact .write c hpc
      · cases h
  | get i key =>
      rw [step] at h
      split at h
      · rename_i hpc
        cases h
        exact .get key hpc
      · cases h
  | append i out =>
      rw [step] at h
      split at h
      · rename_i start c hpc
        cases hlog : s.log.append c.record out with
        | mk log ok =>
            rw [hlog] at h
            cases h
            exact .append hpc hlog
      · cases h
  | sync i out =>
      rw [step] at h
      split at h
      · rename_i start c pos hpc
        cases hlog : s.log.sync out with
        | mk log ok =>
            rw [hlog] at h
            cases h
            exact .sync hpc hlog
      · cases h
  | update i =>
      rw [step] at h
      split at h
      · rename_i start c pos hpc
        cases h
        exact .update hpc
      · cases h
  | read i =>
      rw [step] at h
      split at h
      · rename_i start key hpc
        cases h
        exact .read hpc
      · cases h
  | ret i =>
      rw [step] at h
      split at h
      · rename_i start e hpc
        cases h
        exact .ret hpc
      · cases h

/-! ## §2  Places in the log -/

/-- The frames of the calls' records. -/
def bytes (order : List Call) : Bytes := framing.frames (order.map Call.record)

theorem bytes_snoc (order : List Call) (c : Call) :
    bytes (order ++ [c]) = bytes order ++ encode c.record := by
  rw [bytes, List.map_append, Framing.frames_append]
  show _ ++ (encode c.record ++ []) = _
  rw [List.append_nil]
  rfl

theorem bytes_take_le (order : List Call) (n : ℕ) :
    (bytes (order.take n)).length ≤ (bytes order).length := by
  conv_rhs => rw [← List.take_append_drop n order]
  rw [bytes, bytes, List.map_append, Framing.frames_append, List.length_append]
  exact Nat.le_add_right _ _

/-- The record at place `p` is `c`'s and stands below `off`. -/
def Stands (order : List Call) (off : ℕ) (p : ℕ) (c : Call) : Prop :=
  order[p]? = some c ∧ (bytes (order.take (p + 1))).length ≤ off

/-- Of the writes at the places `seen`, in the order the map took them, the last
to `key` set it to `v`, and its record stands below `off`. -/
def Behind (order : List Call) (off : ℕ) (seen : List ℕ) (key v : Bytes) : Prop :=
  ∃ before p after, seen = before ++ p :: after ∧ Stands order off p (.put key v) ∧
    ∀ q ∈ after, ∃ d, order[q]? = some d ∧ d.write.key ≠ key

/-- A returned effect is backed by the log below `off`. -/
def Backed (order : List Call) (off : ℕ) : Effect → Prop
  | .wrote c pos => Stands order off pos c
  | .got key result seen => ∀ v, result = some v → Behind order off seen key v

section Monotone

variable {order order' : List Call} {off off' : ℕ}

theorem Stands.mono {p : ℕ} {c : Call} (h : Stands order off p c) (horder : order <+: order')
    (hoff : off ≤ off') : Stands order' off' p c := by
  refine ⟨prefix_getElem? horder h.1, ?_⟩
  obtain ⟨rest, rfl⟩ := horder
  rw [List.take_append_of_le_length (List.getElem?_eq_some_iff.mp h.1).1]
  exact h.2.trans hoff

theorem Behind.mono {seen : List ℕ} {key v : Bytes} (h : Behind order off seen key v)
    (horder : order <+: order') (hoff : off ≤ off') : Behind order' off' seen key v := by
  obtain ⟨before, p, after, hseen, hp, hafter⟩ := h
  refine ⟨before, p, after, hseen, hp.mono horder hoff, fun q hq => ?_⟩
  obtain ⟨d, hd, hkey⟩ := hafter q hq
  exact ⟨d, prefix_getElem? horder hd, hkey⟩

theorem Backed.mono : ∀ {e : Effect}, Backed order off e → order <+: order' → off ≤ off' →
    Backed order' off' e
  | .wrote _ _, h, horder, hoff => Stands.mono h horder hoff
  | .got _ _ _, h, horder, hoff => fun v hv => (h v hv).mono horder hoff

/-- The map takes one more write. -/
theorem behind_write {data : Dict Bytes Bytes} {applied : List ℕ} {c : Call} {pos : ℕ}
    (h : ∀ key v, data.lookup key = some v → Behind order off applied key v)
    (hc : Stands order off pos c) (key v : Bytes)
    (hlook : (c.write.apply data).lookup key = some v) :
    Behind order off (applied ++ [pos]) key v := by
  rw [c.write.lookup_apply] at hlook
  split at hlook
  · rename_i hkey
    refine ⟨applied, pos, [], rfl, ?_, fun q hq => absurd hq List.not_mem_nil⟩
    cases c with
    | put k u =>
        cases hkey
        cases hlook
        exact hc
    | delete k => cases hlook
  · rename_i hkey
    obtain ⟨before, p, after, rfl, hp, hafter⟩ := h key v hlook
    refine ⟨before, p, after ++ [pos], by simp, hp, fun q hq => ?_⟩
    rcases List.mem_append.mp hq with hq | hq
    · exact hafter q hq
    · rw [List.mem_singleton.mp hq]
      exact ⟨c, hc.1, fun heq => hkey heq.symm⟩

end Monotone

/-! ## §3  The log runs ahead -/

/-- Bodies of at most 32 MiB. -/
def Fits : System I T → Action I T → Prop
  | _, .write _ c => (encodeBody c.record).length ≤ maxBodySize
  | _, _ => True

instance (s : System I T) (a : Action I T) : Decidable (Fits s a) :=
  match a with
  | .write _ _ => inferInstanceAs (Decidable (_ ≤ _))
  | .tick _ | .get _ _ | .append _ _ | .sync _ _ | .update _ | .read _ | .ret _ =>
      inferInstanceAs (Decidable True)

/-- File and buffer hold a prefix of the frames of `order`, and all of them unless
a write has failed; what the counters count are whole frames. -/
structure Logged (order : List Call) (log : Writer) : Prop where
  valid : ∀ c ∈ order, framing.Valid c.record
  bytes : log.file ++ log.buffer <+: bytes order
  holds : ∃ d, log.Holds (Clients.bytes (order.take d)) ∧ (log.failed = false → d = order.length)

/-- What is known of a client in its call. -/
def PcSound (order : List Call) (off : ℕ) : Pc T → Prop
  | .idle => True
  | .called _ c => framing.Valid c.record
  | .appended _ c pos => order[pos]? = some c
  | .synced _ c pos => Stands order off pos c
  | .asked _ _ => True
  | .done _ e => Backed order off e

structure Sound (s : System I T) : Prop where
  logged : Logged s.order s.log
  clients : ∀ i, PcSound s.order s.log.durableOff (s.pc i)
  memory : ∀ key v, s.data.lookup key = some v →
    Behind s.order s.log.durableOff s.applied key v
  returned : ∀ r ∈ s.returned, Backed s.order s.log.durableOff r.effect

theorem Logged.append {order : List Call} {log log' : Writer} {c : Call} {out : AppendOutcome}
    {ok : Bool} (h : Logged order log) (hc : framing.Valid c.record)
    (hlog : log.append c.record out = (log', ok)) :
    Logged (if log.failed then order else order ++ [c]) log' ∧
      log'.durableOff = log.durableOff ∧ (ok = true → log.failed = false) := by
  obtain ⟨d, hholds, hwhole⟩ := h.holds
  obtain ⟨hnext, -, hoff, -, -⟩ := hholds.append hlog
  have hbytes := Writer.append_bytes hlog
  cases hfailed : log.failed with
  | true =>
      rw [if_pos hfailed] at hbytes
      obtain ⟨rfl, rfl⟩ := hbytes
      exact ⟨h, rfl, fun h => (by cases h)⟩
  | false =>
      rw [hfailed] at hbytes
      obtain ⟨hfailed', hbytes⟩ := hbytes
      obtain rfl := hwhole hfailed
      refine ⟨⟨fun x hx => ?_, ?_, ?_⟩, hoff, fun _ => rfl⟩
      · rcases List.mem_append.mp hx with hx | hx
        · exact h.valid x hx
        · rw [List.mem_singleton.mp hx]
          exact hc
      · rw [List.take_length] at hholds
        show _ <+: Clients.bytes (order ++ [c])
        rw [bytes_snoc, ← hholds.whole hfailed]
        exact hbytes
      · cases ok with
        | true =>
            refine ⟨(order ++ [c]).length, ?_, fun _ => rfl⟩
            show log'.Holds (Clients.bytes ((order ++ [c]).take (order ++ [c]).length))
            rw [List.take_length, bytes_snoc]
            rw [List.take_length] at hnext
            exact hnext
        | false =>
            refine ⟨order.length, ?_, fun hok => ?_⟩
            · show log'.Holds (Clients.bytes ((order ++ [c]).take order.length))
              rw [List.take_append_of_le_length (le_refl _)]
              exact hnext
            · rw [hfailed'] at hok
              cases hok

theorem Logged.sync {order : List Call} {log log' : Writer} {out : SyncOutcome} {ok : Bool}
    (h : Logged order log) (hlog : log.sync out = (log', ok)) :
    Logged order log' ∧ log.durableOff ≤ log'.durableOff ∧
      (ok = true → log'.durableOff = (Clients.bytes order).length) := by
  obtain ⟨d, hholds, hwhole⟩ := h.holds
  obtain ⟨hnext, -, hoff⟩ := hholds.sync hlog
  obtain ⟨hbytes, hfailed, hok⟩ := Writer.sync_bytes hlog
  refine ⟨⟨h.valid, ?_, d, hnext, fun hf => hwhole (hfailed hf)⟩, ?_, fun hret => ?_⟩
  · rw [hbytes]
    exact h.bytes
  · cases ok with
    | true =>
        rw [hoff.1]
        exact hholds.durable_le
    | false => exact le_of_eq hoff.1.symm
  · subst hret
    rw [hoff.1, hwhole (hok rfl), List.take_length]

omit [LinearOrder T] in
/-- The other clients keep what is known of them as the log grows. -/
theorem pcSound_mono {order order' : List Call} {off off' : ℕ} (horder : order <+: order')
    (hoff : off ≤ off') : ∀ {pc : Pc T}, PcSound order off pc → PcSound order' off' pc
  | .idle, _ => trivial
  | .called _ _, h => h
  | .appended _ _ _, h => prefix_getElem? horder h
  | .synced _ _ _, h => Stands.mono h horder hoff
  | .asked _ _, _ => trivial
  | .done _ _, h => Backed.mono h horder hoff

omit [LinearOrder T] in
/-- One client moves and the log grows. -/
theorem clients_update {order order' : List Call} {off off' : ℕ} {pc : I → Pc T} {i : I}
    {next : Pc T} (h : ∀ j, PcSound order off (pc j)) (horder : order <+: order')
    (hoff : off ≤ off') (hnext : PcSound order' off' next) :
    ∀ j, PcSound order' off' (Function.update pc i next j) :=
  (Function.forall_update_iff pc fun _ => PcSound order' off').mpr
    ⟨hnext, fun j _ => pcSound_mono horder hoff (h j)⟩

omit [DecidableEq I] [LinearOrder T] in
theorem sound_initial (t : T) : Sound (initial t : System I T) := by
  refine ⟨⟨?_, ?_, 0, Writer.holds_openFile [], fun _ => rfl⟩, fun _ => trivial, ?_, ?_⟩
  · intro c hc
    cases hc
  · exact List.prefix_rfl
  · intro key v hv
    cases hv
  · intro r hr
    cases hr

theorem sound_step {s s' : System I T} {a : Action I T} (h : Sound s) (hC : Fits s a)
    (hstep : step s a = some s') : Sound s' := by
  obtain ⟨hlogged, hclients, hmem, hret⟩ := h
  cases step_does hstep with
  | tick hle => exact ⟨hlogged, hclients, hmem, hret⟩
  | write c hpc =>
      exact ⟨hlogged, clients_update hclients List.prefix_rfl (le_refl _) hC, hmem, hret⟩
  | get key hpc =>
      exact ⟨hlogged, clients_update hclients List.prefix_rfl (le_refl _) trivial, hmem, hret⟩
  | @append i start c out log ok hpc hlog =>
      have hc : framing.Valid c.record := by
        have := hclients i
        rwa [hpc] at this
      obtain ⟨hnext, hoff, hgood⟩ := hlogged.append hc hlog
      have horder : s.order <+: (if s.log.failed then s.order else s.order ++ [c]) := by
        split
        · exact List.prefix_rfl
        · exact List.prefix_append _ _
      have hle : s.log.durableOff ≤ log.durableOff := le_of_eq hoff.symm
      refine ⟨hnext, clients_update hclients horder hle ?_,
        fun key v hv => (hmem key v hv).mono horder hle, fun r hr => (hret r hr).mono horder hle⟩
      cases ok with
      | true =>
          show (if s.log.failed then s.order else s.order ++ [c])[s.order.length]? = some c
          rw [hgood rfl]
          exact List.getElem?_concat_length
      | false => trivial
  | @sync i start c pos out log ok hpc hlog =>
      have hc : s.order[pos]? = some c := by
        have := hclients i
        rwa [hpc] at this
      obtain ⟨hnext, hle, hall⟩ := hlogged.sync hlog
      refine ⟨hnext, clients_update hclients List.prefix_rfl hle ?_,
        fun key v hv => (hmem key v hv).mono List.prefix_rfl hle,
        fun r hr => (hret r hr).mono List.prefix_rfl hle⟩
      cases ok with
      | true =>
          refine ⟨hc, ?_⟩
          show (bytes (s.order.take (pos + 1))).length ≤ log.durableOff
          rw [hall rfl]
          exact bytes_take_le _ _
      | false => trivial
  | @update i start c pos hpc =>
      have hc : Stands s.order s.log.durableOff pos c := by
        have := hclients i
        rwa [hpc] at this
      exact ⟨hlogged, clients_update hclients List.prefix_rfl (le_refl _) hc,
        behind_write hmem hc, hret⟩
  | @read i start key hpc =>
      exact ⟨hlogged, clients_update hclients List.prefix_rfl (le_refl _) (hmem key), hmem, hret⟩
  | @ret i start e hpc =>
      have he : Backed s.order s.log.durableOff e := by
        have := hclients i
        rwa [hpc] at this
      refine ⟨hlogged, clients_update hclients List.prefix_rfl (le_refl _) trivial, hmem,
        fun r hr => ?_⟩
      rcases List.mem_append.mp hr with hr | hr
      · exact hret r hr
      · rw [List.mem_singleton.mp hr]
        exact he

theorem sound_run {t : T} {as : List (Action I T)} {s : System I T}
    (hrun : Run step Fits (initial t) as s) : Sound s :=
  hrun.invariant (sound_initial t) sound_step

/-! ## §4  After a crash -/

/-- A replay of what a crash leaves gives a prefix of the records, with every one
that stands below the durable offset. -/
theorem Logged.replay {order : List Call} {log : Writer} (h : Logged order log) {kept : Bytes}
    (hkept : kept <+: log.file ++ log.buffer) (hdurable : log.durableOff ≤ kept.length) :
    replay kept <+: order.map Call.record ∧
      ∀ p c, Stands order log.durableOff p c → (replay kept)[p]? = some c.record := by
  have hvalid : ∀ r ∈ order.map Call.record, framing.Valid r := by
    intro r hr
    obtain ⟨c, hc, rfl⟩ := List.mem_map.mp hr
    exact h.valid c hc
  obtain ⟨m, t, rfl, htorn, hfit⟩ := Framing.cut_frames hvalid (hkept.trans h.bytes)
  have hreplay : WAL.replay (framing.frames ((order.map Call.record).take m) ++ t) =
      (order.map Call.record).take m :=
    Framing.parseAll_torn (fun r hr => hvalid r (List.mem_of_mem_take hr)) htorn
  rw [hreplay]
  refine ⟨List.take_prefix _ _, fun p c hp => ?_⟩
  have hlt : p + 1 ≤ order.length := (List.getElem?_eq_some_iff.mp hp.1).1
  have hm : p + 1 ≤ m := by
    refine hfit (p + 1) (by rwa [List.length_map]) ?_
    rw [← List.map_take]
    exact hp.2.trans hdurable
  rw [List.getElem?_take_of_lt hm, List.getElem?_map, hp.1]
  rfl

/-- **Write-ahead.** Whatever the interleaving and the failures, after a crash at
any moment that leaves a prefix of what was written, at least the durable part,
`Replay` returns a prefix of the appended records that holds every record whose
call returned and the record behind every value a `Get` returned: the last put to
its key among the updates the `Get` had seen. -/
theorem write_ahead {t : T} {as : List (Action I T)} {s : System I T}
    (hrun : Run step Fits (initial t) as s) {kept : Bytes}
    (hkept : kept <+: s.log.file ++ s.log.buffer) (hdurable : s.log.durableOff ≤ kept.length) :
    replay kept <+: s.order.map Call.record ∧
      (∀ start stop c pos, ⟨start, stop, .wrote c pos⟩ ∈ s.returned →
        (replay kept)[pos]? = some c.record) ∧
      ∀ start stop key v seen, ⟨start, stop, .got key (some v) seen⟩ ∈ s.returned →
        ∃ before p after, seen = before ++ p :: after ∧
          (replay kept)[p]? = some (Call.put key v).record ∧
          ∀ q ∈ after, ∃ d, s.order[q]? = some d ∧ d.write.key ≠ key := by
  have hsound := sound_run hrun
  obtain ⟨hpre, hstands⟩ := hsound.logged.replay hkept hdurable
  refine ⟨hpre, fun start stop c pos hr => ?_, fun start stop key v seen hr => ?_⟩
  · exact hstands pos c (hsound.returned _ hr)
  · obtain ⟨before, p, after, hseen, hp, hafter⟩ := hsound.returned _ hr v rfl
    exact ⟨before, p, after, hseen, hstands p _ hp, hafter⟩

/-- Two clients write one key, the first one's `Sync` also makes the second one's
record durable, a `Get` sees the first, and a third `Append` fails half way; one
byte more than the durable ones survives. -/
theorem write_ahead_torn :
    let as : List (Action (Fin 2) ℕ) :=
      [.write 0 (.put [97] [1]), .write 1 (.put [97] [2]), .append 0 (.ok 3), .append 1 (.ok 0),
        .sync 0 .ok, .update 0, .ret 0, .tick 5, .get 0 [97], .read 0, .ret 0,
        .write 0 (.delete [97]), .append 0 (.writeFails 4 2)]
    let s := endState step Fits (initial 0) as
    let kept := (s.log.file ++ s.log.buffer).take (s.log.durableOff + 1)
    s.returned = [⟨0, 0, .wrote (.put [97] [1]) 0⟩, ⟨5, 5, .got [97] (some [1]) [0]⟩] ∧
      kept.length = s.log.durableOff + 1 ∧
      replay kept <+: s.order.map Call.record ∧
      (replay kept)[0]? = some (Call.put [97] [1]).record := by
  intro as s kept
  have hrun : Run step Fits (initial 0) as s := run_endState (by decide +kernel)
  have hreturned : s.returned =
      [⟨0, 0, .wrote (.put [97] [1]) 0⟩, ⟨5, 5, .got [97] (some [1]) [0]⟩] := by decide +kernel
  have hlen : kept.length = s.log.durableOff + 1 := by decide +kernel
  obtain ⟨hpre, hwrote, -⟩ :=
    write_ahead hrun (List.take_prefix _ _) ((Nat.le_succ _).trans (le_of_eq hlen.symm))
  refine ⟨hreturned, hlen, hpre, hwrote 0 0 _ 0 ?_⟩
  rw [hreturned]
  exact List.mem_cons_self

/-! ## §5  Without failures -/

/-- A client as `Concurrent` sees it: only in the middle of a write. -/
def Pc.concurrent : Pc T → Concurrent.Pc
  | .appended _ c pos => .appended c pos
  | .synced _ c pos => .synced c pos
  | .idle | .called _ _ | .asked _ _ | .done _ _ => .idle

def System.concurrent (s : System I T) : Concurrent.State I :=
  { store := { data := s.data, log := s.log.toLog }, pc := Pc.concurrent ∘ s.pc,
    order := s.order, applied := s.applied }

/-- No file operation fails. -/
def NoErrors : System I T → Action I T → Prop
  | _, .append _ out => ∃ n, out = .ok n
  | _, .sync _ out => out = .ok
  | _, _ => True

/-- The writer has not failed. -/
def Working (w : Writer) : Prop := w.failed = false ∧ ∃ bytes, w.Holds bytes

theorem Working.append {w w' : Writer} {c : Call} {n : ℕ} {ok : Bool} (h : Working w)
    (hlog : w.append c.record (.ok n) = (w', ok)) :
    Working w' ∧ ok = true ∧ w'.toLog = w.toLog.append c.record := by
  obtain ⟨hgood, bytes, hholds⟩ := h
  have hok : ok = true := by
    rw [Writer.append, hgood] at hlog
    exact (congrArg Prod.snd hlog).symm
  have hbytes := Writer.append_bytes hlog
  rw [hgood, hok] at hbytes
  refine ⟨⟨hbytes.1, _, (hholds.append hlog).1⟩, hok, ?_⟩
  rw [← Writer.toLog_append hholds hgood c.record n, hlog]

theorem Working.sync {w w' : Writer} {ok : Bool} (h : Working w)
    (hlog : w.sync .ok = (w', ok)) : Working w' ∧ ok = true ∧ w'.toLog = w.toLog.sync := by
  obtain ⟨hgood, bytes, hholds⟩ := h
  have hret : w' = (w.sync .ok).1 ∧ ok = (w.sync .ok).2 := by rw [hlog]; exact ⟨rfl, rfl⟩
  obtain ⟨hw, hok⟩ := hret
  rw [Writer.sync, hgood] at hw hok
  refine ⟨⟨by rw [hw]; exact hgood, bytes, (hholds.sync hlog).1⟩, hok, ?_⟩
  rw [← Writer.toLog_sync hholds hgood, hlog]

omit [LinearOrder T] in
/-- A client moves outside a write. -/
theorem concurrent_update {pc : I → Pc T} {i : I} {next : Pc T}
    (h : (pc i).concurrent = next.concurrent) :
    Pc.concurrent ∘ Function.update pc i next = Pc.concurrent ∘ pc := by
  rw [Function.comp_update, ← h]
  exact Function.update_eq_self i (Pc.concurrent ∘ pc)

/-- A step is one of `Concurrent` or invisible to it. -/
theorem step_concurrent {s s' : System I T} {a : Action I T} (h : Working s.log)
    (hC : NoErrors s a) (hstep : step s a = some s') :
    Working s'.log ∧
      (s'.concurrent = s.concurrent ∨
        ∃ b, Concurrent.step s.concurrent b = some s'.concurrent) := by
  cases step_does hstep with
  | tick hle => exact ⟨h, Or.inl rfl⟩
  | @write i c hpc =>
      refine ⟨h, Or.inl ?_⟩
      rw [System.concurrent, concurrent_update (by rw [hpc]; rfl)]
      rfl
  | @get i key hpc =>
      refine ⟨h, Or.inl ?_⟩
      rw [System.concurrent, concurrent_update (by rw [hpc]; rfl)]
      rfl
  | @append i start c out log ok hpc hlog =>
      obtain ⟨n, rfl⟩ := hC
      obtain ⟨hnext, rfl, hto⟩ := h.append hlog
      refine ⟨hnext, Or.inr ⟨.append i c, ?_⟩⟩
      have hidle : s.concurrent.pc i = .idle := congrArg Pc.concurrent hpc
      rw [Concurrent.step, hidle]
      show _ = some (Concurrent.State.mk ⟨s.data, log.toLog⟩
        (Pc.concurrent ∘ Function.update s.pc i (.appended start c s.order.length))
        (if s.log.failed then s.order else s.order ++ [c]) s.applied)
      rw [Function.comp_update, hto, h.1]
      rfl
  | @sync i start c pos out log ok hpc hlog =>
      obtain rfl : out = .ok := hC
      obtain ⟨hnext, rfl, hto⟩ := h.sync hlog
      refine ⟨hnext, Or.inr ⟨.sync i, ?_⟩⟩
      have hpc' : s.concurrent.pc i = .appended c pos := congrArg Pc.concurrent hpc
      rw [Concurrent.step, hpc']
      show _ = some (Concurrent.State.mk ⟨s.data, log.toLog⟩
        (Pc.concurrent ∘ Function.update s.pc i (.synced start c pos)) s.order s.applied)
      rw [Function.comp_update, hto]
      rfl
  | @update i start c pos hpc =>
      refine ⟨h, Or.inr ⟨.update i, ?_⟩⟩
      have hpc' : s.concurrent.pc i = .synced c pos := congrArg Pc.concurrent hpc
      rw [Concurrent.step, hpc']
      show _ = some (Concurrent.State.mk ⟨c.write.apply s.data, s.log.toLog⟩
        (Pc.concurrent ∘ Function.update s.pc i (.done start (.wrote c pos))) s.order
        (s.applied ++ [pos]))
      rw [Function.comp_update]
      rfl
  | @read i start key hpc =>
      refine ⟨h, Or.inl ?_⟩
      rw [System.concurrent, concurrent_update (by rw [hpc]; rfl)]
      rfl
  | @ret i start e hpc =>
      refine ⟨h, Or.inl ?_⟩
      rw [System.concurrent, concurrent_update (by rw [hpc]; rfl)]
      rfl

/-- **Refinement.** A run without failures is, as far as log and map go, a run of
`Concurrent`. -/
theorem run_concurrent {t : T} {as : List (Action I T)} {s : System I T}
    (hrun : Run step NoErrors (initial t) as s) :
    ∃ bs, Run Concurrent.step Always (Concurrent.initial []) bs s.concurrent := by
  refine hrun.project System.concurrent (I := fun s => Working s.log) ?_ ?_
  · exact ⟨rfl, [], Writer.holds_openFile []⟩
  · intro u v a hwork hC hstep
    obtain ⟨hwork', hsame | ⟨b, hb⟩⟩ := step_concurrent hwork hC hstep
    · exact ⟨hwork', Or.inl hsame⟩
    · exact ⟨hwork', Or.inr ⟨b, trivial, hb⟩⟩

end KVEngine.Store.Clients
