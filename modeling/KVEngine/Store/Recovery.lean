import KVEngine.Store.Sessions
import KVEngine.WAL.Writer
import Mathlib.Data.List.TakeWhile

/-!
# What a reopened store holds

Two ways for a store and its log to part without a crash.

`Append` writes records of any length, but `ReadRecord` refuses a body beyond 32 MiB
and `Replay` takes that for the end of the log: reopening gives the map of the calls
before the first such record (`reopen_calls`), whatever was acknowledged later.

A call whose `fsync` fails returns an error and leaves the map alone, but its record
is in the file by then and is replayed. The two maps agree as long as each failed call
that left its whole frame would have changed nothing (`failed_calls_iff`).
-/

namespace KVEngine.Store

open Foundation (Dict Write applyAll applyAll_append Framing parseAll parseAll_of_some
  parseUpTo_of_none)
open WAL (Record encode encodeBody maxBodySize framing replay Writer AppendOutcome SyncOutcome)

/-! ## §1  Records beyond the limit -/

/-- The body of the call's record is within the limit of `ReadRecord`. -/
def Call.Fits (c : Call) : Prop := (encodeBody c.record).length ≤ maxBodySize

instance (c : Call) : Decidable c.Fits := inferInstanceAs (Decidable (_ ≤ _))

/-- A fresh store after calls that all succeeded. -/
def afterCalls (cs : List Call) : Store := cs.foldl call (openStore [])

/-- `Close`, and the file it leaves. -/
def close (s : Store) : Bytes := s.log.close

theorem afterCalls_close (cs : List Call) :
    (afterCalls cs).close = framing.frames (cs.map Call.record) := by
  obtain ⟨hpending, hfile⟩ := calls_log cs (s := openStore []) rfl
  show (cs.foldl call (openStore [])).log.file ++ (cs.foldl call (openStore [])).log.pending = _
  rw [hpending, hfile, List.append_nil]
  rfl

theorem afterCalls_data (cs : List Call) :
    (afterCalls cs).data = applyAll ∅ (cs.map Call.write) := by
  induction cs using List.reverseRecOn with
  | nil => rfl
  | append_singleton cs c ih =>
      rw [List.map_append, applyAll_append, ← ih, afterCalls, List.foldl_append]
      exact call_data (afterCalls cs) c

/-- `Replay` ends at the first record beyond the limit. -/
theorem replay_frames : ∀ {cs : List Call}, (∀ c ∈ cs, (encodeBody c.record).length < 2 ^ 32) →
    replay (framing.frames (cs.map Call.record)) = (cs.takeWhile (·.Fits)).map Call.record
  | [], _ => rfl
  | c :: cs, h => by
      rw [List.map_cons, Framing.frames_cons]
      by_cases hfit : c.Fits
      · have hparse := framing.parse_encode (framing.frames (cs.map Call.record)) hfit
        have ih := replay_frames fun d hd => h d (List.mem_cons_of_mem _ hd)
        rw [List.takeWhile_cons_of_pos (by simpa using hfit), List.map_cons, ← ih]
        exact parseAll_of_some framing.parse_lt hparse
      · obtain ⟨e, n, rest, he⟩ := WAL.readRecordWith_error WAL.checksumIEEE
          (h c List.mem_cons_self) List.prefix_rfl (Or.inr (not_le.mp hfit))
        have hparse : WAL.nextRecord (encode c.record ++ framing.frames (cs.map Call.record)) =
            none := by
          rw [WAL.nextRecord, WAL.nextRecordWith, encode, WAL.encodeWith, he]
        rw [List.takeWhile_cons_of_neg (by simpa using hfit)]
        exact parseUpTo_of_none hparse

/-- What reopening gives. -/
theorem reopen_data {cs : List Call} (h : ∀ c ∈ cs, (encodeBody c.record).length < 2 ^ 32) :
    (openStore (afterCalls cs).close).data = (afterCalls (cs.takeWhile (·.Fits))).data := by
  show (replay (afterCalls cs).close).foldl applyRecord ∅ = _
  rw [afterCalls_close, replay_frames h, foldl_applyRecord, afterCalls_data]

/-- **Reopening after any calls** gives the map of the calls before the first one whose
record is beyond the limit, so all of them if there is none. -/
theorem reopen_calls {cs : List Call} (h : ∀ c ∈ cs, (encodeBody c.record).length < 2 ^ 32) :
    (openStore (afterCalls cs).close).data = (afterCalls (cs.takeWhile (·.Fits))).data ∧
      ((∀ c ∈ cs, c.Fits) → (openStore (afterCalls cs).close).data = (afterCalls cs).data) := by
  refine ⟨reopen_data h, fun hfit => ?_⟩
  rw [reopen_data h, List.takeWhile_eq_self_iff.mpr fun c hc => by simpa using hfit c hc]

/-- Three calls of which one deletes what another wrote. -/
theorem reopen_calls_small :
    let cs : List Call := [.put [97] [1], .put [] [], .delete [97]]
    (openStore (afterCalls cs).close).data = (afterCalls cs).data ∧
      (afterCalls cs).get [] = some [] ∧ (afterCalls cs).get [97] = none :=
  ⟨(reopen_calls (by decide)).2 (by decide), by decide +kernel, by decide +kernel⟩

/-- `Put` of a value of `n` zeros. -/
def putZeros (n : ℕ) : Call := .put [97] (List.replicate n 0)

theorem putZeros_length (n : ℕ) : (encodeBody (putZeros n).record).length = 10 + n := by
  rw [WAL.length_encodeBody, putZeros, Call.record, List.length_replicate]
  rfl

theorem reopen_putZeros {n : ℕ} (hlarge : maxBodySize < 10 + n) (hn : 10 + n < 2 ^ 32) :
    (afterCalls [putZeros n, .put [98] [1]]).get [97] = some (List.replicate n 0) ∧
      (afterCalls [putZeros n, .put [98] [1]]).get [98] = some [1] ∧
      (openStore (afterCalls [putZeros n, .put [98] [1]]).close).data = ∅ := by
  have hunfit : ¬ (putZeros n).Fits := by
    rw [Call.Fits, putZeros_length]
    omega
  have hdata : (afterCalls [putZeros n, .put [98] [1]]).data =
      (Finmap.insert [97] (List.replicate n 0) ∅).insert [98] [1] :=
    afterCalls_data _
  have hlen : ∀ c ∈ [putZeros n, .put [98] [1]], (encodeBody c.record).length < 2 ^ 32 := by
    intro c hc
    rcases List.mem_cons.mp hc with rfl | hc
    · rw [putZeros_length]
      exact hn
    · rw [List.mem_singleton.mp hc]
      decide
  refine ⟨?_, ?_, ?_⟩
  · rw [get, hdata, Finmap.lookup_insert_of_ne _ (by decide), Finmap.lookup_insert]
  · rw [get, hdata, Finmap.lookup_insert]
  · rw [reopen_data hlen, List.takeWhile_cons_of_neg (by simpa using hunfit)]
    rfl

/-- A value of 32 MiB is stored and acknowledged, and so is the next one. After
reopening both are gone. -/
theorem large_value_lost :
    (afterCalls [putZeros (2 ^ 25), .put [98] [1]]).get [97] = some (List.replicate (2 ^ 25) 0) ∧
      (afterCalls [putZeros (2 ^ 25), .put [98] [1]]).get [98] = some [1] ∧
      (openStore (afterCalls [putZeros (2 ^ 25), .put [98] [1]]).close).data = ∅ :=
  reopen_putZeros (by decide) (by decide)

/-! ## §2  Files that fail -/

/-- The store over a log whose file operations may fail. -/
structure Fallible where
  data : Dict Bytes Bytes
  log : Writer

structure Outcome where
  append : AppendOutcome
  sync : SyncOutcome
deriving DecidableEq

namespace Fallible

/-- `Open` on an empty file. -/
def fresh : Fallible := { data := (openStore []).data, log := .openFile [] }

/-- `Put` or `Delete`, and whether it returned `nil`. -/
def call (s : Fallible) (c : Call) (out : Outcome) : Fallible × Bool :=
  let (log, ok) := s.log.append c.record out.append
  if ok then
    let (log, ok) := log.sync out.sync
    if ok then ({ data := c.write.apply s.data, log }, true) else ({ s with log }, false)
  else ({ s with log }, false)

def run (cs : List (Call × Outcome)) : Fallible :=
  cs.foldl (fun s x => (s.call x.1 x.2).1) fresh

theorem run_snoc (cs : List (Call × Outcome)) (x : Call × Outcome) :
    run (cs ++ [x]) = ((run cs).call x.1 x.2).1 := by
  rw [run, List.foldl_append]
  rfl

/-- The map that `Open` rebuilds from the file is the one in memory. -/
def Agrees (s : Fallible) : Prop := (openStore s.log.file).data = s.data

/-- The call returned an error and left its whole frame in the file. -/
def LeavesFrame (s : Fallible) (c : Call) (out : Outcome) : Prop :=
  (s.call c out).2 = false ∧ (s.call c out).1.log.file = s.log.file ++ encode c.record

instance (s : Fallible) (c : Call) (out : Outcome) : Decidable (s.LeavesFrame c out) :=
  inferInstanceAs (Decidable (_ ∧ _))

/-- A single `Put` whose `fsync` fails: the error is returned, the map has no such key,
and after reopening it has. A successful call afterwards changes nothing about it. -/
theorem failed_write_recovered :
    let failing : Outcome := ⟨.ok 0, .fsyncFails⟩
    let good : Outcome := ⟨.ok 0, .ok⟩
    (fresh.call (.put [97] [1]) failing).2 = false ∧
      (run [(.put [97] [1], failing)]).data.lookup [97] = none ∧
      (openStore (run [(.put [97] [1], failing)]).log.file).get [97] = some [1] ∧
      (run [(.put [97] [1], failing), (.put [98] [2], good)]).data.lookup [97] = none ∧
      (openStore (run [(.put [97] [1], failing), (.put [98] [2], good)]).log.file).get [97] =
        some [1] := by
  decide +kernel

/-! ### Without failures -/

def toStore (s : Fallible) : Store := { data := s.data, log := s.log.toLog }

/-- Where nothing fails a call is the one of the store. -/
theorem toStore_call {s : Fallible} {bytes : Bytes} (h : s.log.Holds bytes)
    (hok : s.log.failed = false) (c : Call) (n : ℕ) :
    (s.call c ⟨.ok n, .ok⟩).2 = true ∧
      (s.call c ⟨.ok n, .ok⟩).1.toStore = s.toStore.call c := by
  have happend : s.log.append c.record (.ok n) =
      ((s.log.append c.record (.ok n)).1, true) := by
    unfold Writer.append
    rw [hok]
    rfl
  have hgood : (s.log.append c.record (.ok n)).1.failed = false := by
    unfold Writer.append
    rw [hok]
    exact hok
  have hsync : (s.log.append c.record (.ok n)).1.sync .ok =
      (((s.log.append c.record (.ok n)).1.sync .ok).1, true) := by
    unfold Writer.sync
    rw [hgood]
    rfl
  have hcall : s.call c ⟨.ok n, .ok⟩ =
      ({ data := c.write.apply s.data, log := ((s.log.append c.record (.ok n)).1.sync .ok).1 },
        true) := by
    unfold call
    dsimp only
    rw [happend]
    dsimp only
    rw [if_pos rfl, hsync]
    rfl
  have hdata := call_data s.toStore c
  have hlog := call_log s.toStore c
  refine ⟨by rw [hcall], ?_⟩
  rw [hcall]
  show Store.mk _ ((s.log.append c.record (.ok n)).1.sync .ok).1.toLog = _
  rw [Writer.toLog_sync (h.append happend).1 hgood, Writer.toLog_append h hok]
  show Store.mk (c.write.apply s.toStore.data) (s.toStore.log.append c.record).sync = _
  rw [← hdata, ← hlog]

/-! ### What is in the file -/

/-- The file holds the frames of `ks` and a torn one at most, and no torn one as long
as the writer has not failed. -/
structure Logged (s : Fallible) (ks : List Call) : Prop where
  fits : ∀ c ∈ ks, c.Fits
  file : ∃ t, s.log.file = framing.frames (ks.map Call.record) ++ t ∧ framing.Torn t ∧
    (s.log.failed = false → t = [] ∧ s.log.buffer = [])

theorem logged_fresh : Logged fresh [] :=
  ⟨List.forall_mem_nil _, [], rfl, Or.inl rfl, fun _ => ⟨rfl, rfl⟩⟩

variable {s : Fallible} {ks : List Call} {c : Call} {out : Outcome}

theorem Logged.reopen (h : Logged s ks) :
    (openStore s.log.file).data = applyAll ∅ (ks.map Call.write) := by
  obtain ⟨t, hfile, htorn, -⟩ := h.file
  have hvalid : ∀ r ∈ ks.map Call.record, framing.Valid r := by
    intro r hr
    obtain ⟨d, hd, rfl⟩ := List.mem_map.mp hr
    exact h.fits d hd
  have hreplay : replay s.log.file = ks.map Call.record := by
    rw [hfile]
    exact Framing.parseAll_torn hvalid htorn
  show (replay s.log.file).foldl applyRecord ∅ = _
  rw [hreplay, foldl_applyRecord]

/-- A whole frame more. -/
theorem Logged.whole (h : Logged s ks) (hok : s.log.failed = false) (hfit : c.Fits)
    {s' : Fallible} (hfile : s'.log.file = s.log.file ++ encode c.record)
    (hbuffer : s'.log.failed = false → s'.log.buffer = []) : Logged s' (ks ++ [c]) := by
  obtain ⟨t, ht, -, hclean⟩ := h.file
  refine ⟨fun d hd => ?_, [], ?_, Or.inl rfl, fun hok' => ⟨rfl, hbuffer hok'⟩⟩
  · rcases List.mem_append.mp hd with hd | hd
    · exact h.fits d hd
    · rw [List.mem_singleton.mp hd]
      exact hfit
  · rw [hfile, ht, (hclean hok).1, List.append_nil, List.append_nil, List.map_append,
      Framing.frames_append]
    show _ = _ ++ (encode c.record ++ [])
    rw [List.append_nil]

/-- A part of a frame at most, and then nothing any more. -/
theorem Logged.part (h : Logged s ks) (hok : s.log.failed = false) (hfit : c.Fits)
    {s' : Fallible} {n : ℕ} (hn : n < (encode c.record).length)
    (hfile : s'.log.file = s.log.file ++ (encode c.record).take n)
    (hfailed : s'.log.failed = true) : Logged s' ks := by
  obtain ⟨t, ht, -, hclean⟩ := h.file
  refine ⟨h.fits, (encode c.record).take n, ?_, Framing.torn_take hfit hn, fun hok' => ?_⟩
  · rw [hfile, ht, (hclean hok).1, List.append_nil]
  · rw [hfailed] at hok'
    cases hok'

/-- **One call.** A writer that has failed does nothing. One that has not hands the
first `n` bytes of the frame to the file, all of them unless it fails. -/
theorem call_cases {s' : Fallible} {ok : Bool} (hbuffer : s.log.buffer = [])
    (hok : s.log.failed = false) (h : s.call c out = (s', ok)) :
    s'.data = (if ok then c.write.apply s.data else s.data) ∧
      (s'.log.failed = false → s'.log.buffer = []) ∧
      ∃ n, s'.log.file = s.log.file ++ (encode c.record).take n ∧
        (n < (encode c.record).length → s'.log.failed = true ∧ ok = false) := by
  unfold call at h
  cases happend : s.log.append c.record out.append with
  | mk log appended =>
      obtain ⟨n, hfile, hfailed, hrest⟩ := Writer.append_handed hbuffer hok happend
      rw [happend] at h
      cases appended with
      | false =>
          cases h
          refine ⟨rfl, fun hgood => ?_, n, hfile, fun _ => ⟨hfailed, rfl⟩⟩
          cases hfailed.symm.trans hgood
      | true =>
          cases hsync : log.sync out.sync with
          | mk log' synced =>
              obtain ⟨m, hfile', hempty, hpart⟩ := Writer.sync_handed hfailed hsync
              have hall : log'.file = s.log.file ++ (encode c.record).take (n + m) := by
                rw [hfile', hfile, hrest rfl, List.take_add, List.append_assoc]
              have hcut : n + m < (encode c.record).length →
                  log'.failed = true ∧ synced = false := by
                intro hlt
                apply hpart
                rw [hrest rfl, List.length_drop]
                omega
              dsimp only at h
              rw [if_pos rfl, hsync] at h
              cases synced <;> cases h <;> exact ⟨rfl, hempty, n + m, hall, hcut⟩

/-- Once the writer has failed, every call does. -/
theorem call_failed (hfailed : s.log.failed = true) (c : Call) (out : Outcome) :
    s.call c out = (s, false) := by
  unfold call Writer.append
  rw [hfailed]
  rfl

theorem call_data_of_error (h : (s.call c out).2 = false) : (s.call c out).1.data = s.data := by
  unfold call at h ⊢
  dsimp only at h ⊢
  split at h
  · rename_i happend
    rw [if_pos happend]
    split at h
    · cases h
    · rename_i hsync
      rw [if_neg hsync]
  · rename_i happend
    rw [if_neg happend]

/-- What is in the file after a call. -/
theorem Logged.call (h : Logged s ks) (hfit : c.Fits) (out : Outcome) :
    ((s.call c out).2 = true ∧ (s.call c out).1.data = c.write.apply s.data ∧
        Logged (s.call c out).1 (ks ++ [c])) ∨
      (s.LeavesFrame c out ∧ Logged (s.call c out).1 (ks ++ [c])) ∨
      ((s.call c out).2 = false ∧ ¬ s.LeavesFrame c out ∧ Logged (s.call c out).1 ks) := by
  have hpos : 0 < (encode c.record).length := by
    rw [WAL.length_encode]
    omega
  cases hfailed : s.log.failed with
  | true =>
      have hsame := call_failed hfailed c out
      refine Or.inr (Or.inr ⟨by rw [hsame], ?_, by rw [hsame]; exact h⟩)
      rintro ⟨-, hfile⟩
      rw [hsame] at hfile
      have hlen := congrArg List.length (show s.log.file = s.log.file ++ _ from hfile)
      rw [List.length_append] at hlen
      omega
  | false =>
      obtain ⟨t, -, -, hclean⟩ := h.file
      obtain ⟨hdata, hbuffer, n, hfile, hpart⟩ :=
        call_cases (hclean hfailed).2 hfailed (Prod.eta (s.call c out)).symm
      by_cases hn : n < (encode c.record).length
      · obtain ⟨hfailed', hok⟩ := hpart hn
        refine Or.inr (Or.inr ⟨hok, ?_, h.part hfailed hfit hn hfile hfailed'⟩)
        rintro ⟨-, hwhole⟩
        have hlen := congrArg List.length (hfile.symm.trans hwhole)
        rw [List.length_append, List.length_append, List.length_take] at hlen
        omega
      · rw [List.take_of_length_le (not_lt.mp hn)] at hfile
        have hlogged := h.whole hfailed hfit hfile hbuffer
        cases hok : (s.call c out).2 with
        | true =>
            rw [hok] at hdata
            exact Or.inl ⟨rfl, hdata, hlogged⟩
        | false => exact Or.inr (Or.inl ⟨⟨hok, hfile⟩, hlogged⟩)

theorem logged_run {cs : List (Call × Outcome)} (h : ∀ x ∈ cs, x.1.Fits) :
    ∃ ks, Logged (run cs) ks := by
  induction cs using List.reverseRecOn with
  | nil => exact ⟨[], logged_fresh⟩
  | append_singleton cs x ih =>
      obtain ⟨ks, hks⟩ := ih fun y hy => h y (List.mem_append_left _ hy)
      have hx := h x (List.mem_append_right _ (List.mem_singleton_self x))
      rw [run_snoc]
      rcases hks.call hx x.2 with ⟨-, -, hlogged⟩ | ⟨-, hlogged⟩ | ⟨-, -, hlogged⟩
      · exact ⟨_, hlogged⟩
      · exact ⟨_, hlogged⟩
      · exact ⟨_, hlogged⟩

/-- Maps that agree still do after a call, unless it failed, left its frame and would
have changed the map. -/
theorem Logged.agrees_call (h : Logged s ks) (hfit : c.Fits) (hagrees : s.Agrees) :
    (s.call c out).1.Agrees ↔ (s.LeavesFrame c out → c.write.apply s.data = s.data) := by
  have hold : applyAll ∅ (ks.map Call.write) = s.data := h.reopen.symm.trans hagrees
  have hnew : applyAll ∅ ((ks ++ [c]).map Call.write) = c.write.apply s.data := by
    rw [List.map_append, applyAll_append, hold]
    rfl
  rcases h.call hfit out with ⟨hok, hdata, hlogged⟩ | ⟨hleaves, hlogged⟩ | ⟨herr, hno, hlogged⟩
  · have hno : ¬ s.LeavesFrame c out := fun hleaves => by
      rw [hleaves.1] at hok
      cases hok
    rw [Agrees, hlogged.reopen, hnew, hdata]
    exact ⟨fun _ hleaves => absurd hleaves hno, fun _ => rfl⟩
  · rw [Agrees, hlogged.reopen, hnew, call_data_of_error hleaves.1]
    exact ⟨fun heq _ => heq, fun himp => himp hleaves⟩
  · rw [Agrees, hlogged.reopen, hold, call_data_of_error herr]
    exact ⟨fun _ hleaves => absurd hleaves hno, fun _ => rfl⟩

/-- **Failed calls.** A call that returns an error leaves the map in memory alone. The
map in the file is the one in memory all along exactly if every failed call that left
its whole frame wrote what the map held anyway. -/
theorem failed_calls_iff {cs : List (Call × Outcome)} (h : ∀ x ∈ cs, x.1.Fits) :
    (∀ n c out, cs[n]? = some (c, out) → ((run (cs.take n)).call c out).2 = false →
      (run (cs.take (n + 1))).data = (run (cs.take n)).data) ∧
    ((∀ n, (run (cs.take n)).Agrees) ↔
      ∀ n c out, cs[n]? = some (c, out) → (run (cs.take n)).LeavesFrame c out →
        c.write.apply (run (cs.take n)).data = (run (cs.take n)).data) := by
  have hnext : ∀ {n c out}, cs[n]? = some (c, out) →
      run (cs.take (n + 1)) = ((run (cs.take n)).call c out).1 := by
    intro n c out hx
    rw [List.take_add_one, hx]
    exact run_snoc (cs.take n) (c, out)
  have hstep : ∀ {n c out}, cs[n]? = some (c, out) → (run (cs.take n)).Agrees →
      ((run (cs.take (n + 1))).Agrees ↔ ((run (cs.take n)).LeavesFrame c out →
        c.write.apply (run (cs.take n)).data = (run (cs.take n)).data)) := by
    intro n c out hx hagrees
    have hfits : ∀ x ∈ cs.take n, x.1.Fits := fun x hx => h x (List.mem_of_mem_take hx)
    obtain ⟨ks, hks⟩ := logged_run hfits
    rw [hnext hx]
    exact hks.agrees_call (h (c, out) (List.mem_of_getElem? hx)) hagrees
  refine ⟨fun n c out hx herr => ?_, ⟨fun hall n c out hx => ?_, fun himp n => ?_⟩⟩
  · rw [hnext hx]
    exact call_data_of_error herr
  · exact (hstep hx (hall n)).mp (hall (n + 1))
  · induction n with
    | zero => exact rfl
    | succ n ih =>
        cases hx : cs[n]? with
        | none =>
            rw [List.take_add_one, hx]
            simpa using ih
        | some x => exact (hstep hx ih).mpr (himp n x.1 x.2 hx)

/-- A `Put`, the same one again with an `fsync` that fails, a write that fails three
bytes into the frame, and one after that. -/
def failingCalls : List (Call × Outcome) :=
  [(.put [97] [1], ⟨.ok 5, .ok⟩), (.put [97] [1], ⟨.ok 0, .fsyncFails⟩),
    (.put [98] [2], ⟨.writeFails 3 3, .ok⟩), (.delete [97], ⟨.ok 0, .ok⟩)]

theorem failed_calls_torn :
    (∀ n, (run (failingCalls.take n)).Agrees) ∧
      (run failingCalls).data.lookup [97] = some [1] ∧
      (run (failingCalls.take 1)).LeavesFrame (.put [97] [1]) ⟨.ok 0, .fsyncFails⟩ := by
  refine ⟨(failed_calls_iff (by decide)).2.mpr fun n c out hx hleaves => ?_, by decide +kernel,
    by decide +kernel⟩
  match n with
  | 0 =>
      cases hx
      exact absurd hleaves (by decide +kernel)
  | 1 =>
      cases hx
      exact Write.apply_eq_self (by decide +kernel)
  | 2 =>
      cases hx
      exact absurd hleaves (by decide +kernel)
  | 3 =>
      cases hx
      exact absurd hleaves (by decide +kernel)
  | n + 4 => cases hx

end Fallible

end KVEngine.Store
