import KVEngine.Store.Store

/-!
# Durability over crashes

A session opens the store, makes some calls that return, and is ended by a
crash, possibly in the middle of one more call. `Replay` stops at a torn frame
but `Open` appends behind it, so calls acknowledged after recovering from a
torn tail are lost by the next replay (`lost_after_torn_tail`).

What is true: as long as no session writes behind a torn frame, reopening gives
the map of all acknowledged calls (`durable_sessions`).
-/

namespace KVEngine.Store

open Foundation (Dict Write applyAll Framing)
open WAL (encode encodeBody maxBodySize framing replay openLog)

/-! ## §1  Sessions -/

structure Session where
  /-- The calls that returned. -/
  calls : List Call
  /-- The call the crash interrupted after `Append`, and how many bytes of its
  frame survive. -/
  inFlight : Option (Call × ℕ)
deriving DecidableEq

namespace Session

/-- The file a session leaves behind. -/
def run (file : Bytes) (s : Session) : Bytes :=
  let store := s.calls.foldl call (openStore file)
  match s.inFlight with
  | none => store.log.crash 0
  | some (c, n) => (store.log.append c.record).crash n

/-- The calls that count: those acknowledged, and the interrupted one if its
whole frame survived. -/
def effects (s : Session) : List Call :=
  s.calls ++ match s.inFlight with
    | none => []
    | some (c, n) => if (encode c.record).length ≤ n then [c] else []

/-- Every record body is at most 32 MiB. -/
def Fits (s : Session) : Prop :=
  ∀ c ∈ s.calls ++ (s.inFlight.map Prod.fst).toList,
    (encodeBody c.record).length ≤ maxBodySize

/-- The crash leaves a part of a frame. -/
def Tears (s : Session) : Prop :=
  match s.inFlight with
  | none => False
  | some (c, n) => 0 < n ∧ n < (encode c.record).length

/-- The session adds bytes to the file. -/
def Writes (s : Session) : Prop :=
  s.calls ≠ [] ∨ match s.inFlight with
    | none => False
    | some (_, n) => 0 < n

instance (s : Session) : Decidable s.Fits := inferInstanceAs (Decidable (∀ c ∈ _, _))

instance (s : Session) : Decidable s.Tears :=
  match h : s.inFlight with
  | none => isFalse (by simp [Tears, h])
  | some (c, n) => decidable_of_iff (0 < n ∧ n < (encode c.record).length) (by simp [Tears, h])

instance (s : Session) : Decidable s.Writes :=
  match h : s.inFlight with
  | none => decidable_of_iff (s.calls ≠ []) (by simp [Writes, h])
  | some (_, n) => decidable_of_iff (s.calls ≠ [] ∨ 0 < n) (by simp [Writes, h])

end Session

def runSessions (ss : List Session) : Bytes := ss.foldl Session.run []

/-- The map of all calls that count, in order. -/
def expected (ss : List Session) : Dict Bytes Bytes :=
  applyAll ∅ ((ss.flatMap Session.effects).map Call.write)

/-- A crash three bytes into a frame, then a session whose `Put` is
acknowledged: the value is gone after the next reopen. -/
theorem lost_after_torn_tail :
    let ss : List Session :=
      [⟨[], some (.put [97] [1], 3)⟩, ⟨[.put [97] [2]], none⟩]
    (∀ s ∈ ss, s.Fits) ∧
      (openStore (runSessions ss)).get [97] = none ∧
      (expected ss).lookup [97] = some [2] ∧
      (openStore (runSessions ss)).data ≠ expected ss := by
  refine ⟨by decide +kernel, by decide +kernel, by decide +kernel, fun h => ?_⟩
  have hl := congrArg (Finmap.lookup [97]) h
  revert hl
  decide +kernel

/-! ## §2  What a session leaves -/

theorem calls_log (cs : List Call) {s : Store} (hs : s.log.pending = []) :
    (cs.foldl call s).log.pending = [] ∧
      (cs.foldl call s).log.file = s.log.file ++ framing.frames (cs.map Call.record) := by
  induction cs generalizing s with
  | nil => exact ⟨hs, (List.append_nil _).symm⟩
  | cons c cs ih =>
      obtain ⟨hpending, hfile⟩ := ih (s := s.call c) (by rw [call_log]; rfl)
      refine ⟨hpending, ?_⟩
      rw [List.foldl_cons, hfile, call_log, List.map_cons, Framing.frames_cons,
        ← List.append_assoc]
      show s.log.file ++ (s.log.pending ++ encode c.record) ++ _ = _
      rw [hs]
      rfl

namespace Session

/-- The bytes the interrupted call leaves. -/
def remains (s : Session) : Bytes :=
  match s.inFlight with
  | none => []
  | some (c, n) => (encode c.record).take n

theorem run_eq (file : Bytes) (s : Session) :
    s.run file = file ++ (framing.frames (s.calls.map Call.record) ++ s.remains) := by
  obtain ⟨hpending, hfile⟩ := calls_log s.calls (s := openStore file) rfl
  unfold run remains
  cases s.inFlight with
  | none =>
      show (s.calls.foldl call (openStore file)).log.file ++ List.take 0 _ = _
      rw [hfile, List.take_zero, List.append_nil, List.append_nil]
      rfl
  | some p =>
      show (s.calls.foldl call (openStore file)).log.file ++
        List.take p.2 ((s.calls.foldl call (openStore file)).log.pending ++ _) = _
      rw [hfile, hpending, List.nil_append, List.append_assoc]
      rfl

/-- A session leaves the frames of the calls that count and, behind them, a torn
frame if it tears one. -/
theorem frames_remains {s : Session} (hfit : s.Fits) :
    ∃ t, framing.frames (s.calls.map Call.record) ++ s.remains =
        framing.frames (s.effects.map Call.record) ++ t ∧
      framing.Torn t ∧ (¬ s.Tears → t = []) := by
  unfold remains effects Tears
  cases h : s.inFlight with
  | none => exact ⟨[], by simp, Or.inl rfl, fun _ => rfl⟩
  | some p =>
      obtain ⟨c, n⟩ := p
      dsimp only
      by_cases hn : (encode c.record).length ≤ n
      · refine ⟨[], ?_, Or.inl rfl, fun _ => rfl⟩
        rw [if_pos hn, List.take_of_length_le hn, List.map_append, Framing.frames_append,
          List.append_nil]
        show _ = _ ++ (encode c.record ++ [])
        rw [List.append_nil]
      · have hvalid : framing.Valid c.record := hfit c (by simp [h])
        refine ⟨(encode c.record).take n, ?_, Framing.torn_take hvalid (by exact not_le.mp hn),
          fun htears => ?_⟩
        · rw [if_neg hn, List.append_nil]
        · have : n = 0 := by omega
          rw [this, List.take_zero]

theorem valid_effects {s : Session} (hfit : s.Fits) :
    ∀ r ∈ s.effects.map Call.record, framing.Valid r := by
  intro r hr
  obtain ⟨c, hc, rfl⟩ := List.mem_map.mp hr
  refine hfit c ?_
  unfold effects at hc
  rcases List.mem_append.mp hc with hc | hc
  · exact List.mem_append_left _ hc
  · refine List.mem_append_right _ ?_
    cases h : s.inFlight with
    | none => simp [h] at hc
    | some p =>
        rw [h] at hc
        dsimp only at hc
        split at hc
        · simpa using hc
        · cases hc

/-- A session that adds no bytes leaves the file as it was and counts for
nothing. -/
theorem of_not_writes {s : Session} (h : ¬ s.Writes) (file : Bytes) :
    s.run file = file ∧ s.effects = [] := by
  unfold Writes at h
  rw [run_eq]
  unfold remains effects
  rw [not_or, not_not] at h
  obtain ⟨hcalls, hflight⟩ := h
  rw [hcalls]
  cases hf : s.inFlight with
  | none => exact ⟨List.append_nil _, rfl⟩
  | some p =>
      obtain ⟨c, n⟩ := p
      rw [hf] at hflight
      have hn : n = 0 := Nat.le_zero.mp (not_lt.mp hflight)
      subst hn
      have hlen : ¬ (encode c.record).length ≤ 0 := by
        rw [WAL.length_encode]
        omega
      refine ⟨List.append_nil _, ?_⟩
      show (if (encode c.record).length ≤ 0 then [c] else []) = []
      rw [if_neg hlen]

end Session

/-! ## §3  Whole histories -/

/-- The file: the frames of everything that counts, and a torn tail only if some
session tore one. -/
theorem runSessions_frames {ss : List Session} (hfit : ∀ s ∈ ss, s.Fits)
    (hclean : ss.Pairwise fun a b => a.Tears → ¬ b.Writes) :
    ∃ t, runSessions ss =
        framing.frames ((ss.flatMap Session.effects).map Call.record) ++ t ∧
      framing.Torn t ∧ ((∀ s ∈ ss, ¬ s.Tears) → t = []) := by
  induction ss using List.reverseRecOn with
  | nil => exact ⟨[], rfl, Or.inl rfl, fun _ => rfl⟩
  | append_singleton ss b ih =>
      obtain ⟨hclean, -, hlast⟩ := List.pairwise_append.mp hclean
      obtain ⟨t, hfile, htorn, hnil⟩ :=
        ih (fun s hs => hfit s (List.mem_append_left _ hs)) hclean
      have hrun : runSessions (ss ++ [b]) = b.run (runSessions ss) := by
        rw [runSessions, List.foldl_append]
        rfl
      rw [hrun, List.flatMap_append, List.flatMap_singleton]
      by_cases hw : b.Writes
      · -- nothing was torn before, so this session appends at a record boundary
        have hwhole : t = [] :=
          hnil fun a ha htears => hlast a ha b (List.mem_singleton_self b) htears hw
        obtain ⟨t', hbytes, htorn', hnil'⟩ :=
          Session.frames_remains (hfit b (List.mem_append_right _ (List.mem_singleton_self b)))
        refine ⟨t', ?_, htorn', fun hall =>
          hnil' (hall b (List.mem_append_right _ (List.mem_singleton_self b)))⟩
        rw [Session.run_eq, hfile, hwhole, List.append_nil, hbytes, List.map_append,
          Framing.frames_append, List.append_assoc]
      · obtain ⟨hsame, heffects⟩ := Session.of_not_writes hw (runSessions ss)
        rw [hsame, heffects, List.append_nil]
        exact ⟨t, hfile, htorn, fun hall => hnil fun s hs => hall s (List.mem_append_left _ hs)⟩

/-- **Durability.** When no session adds bytes after a session that tore a frame,
reopening gives the map of every acknowledged call (and of the interrupted ones
whose frame survived), in order. -/
theorem durable_sessions {ss : List Session} (hfit : ∀ s ∈ ss, s.Fits)
    (hclean : ss.Pairwise fun a b => a.Tears → ¬ b.Writes) :
    (openStore (runSessions ss)).data = expected ss := by
  obtain ⟨t, hfile, htorn, -⟩ := runSessions_frames hfit hclean
  have hvalid : ∀ r ∈ (ss.flatMap Session.effects).map Call.record, framing.Valid r := by
    intro r hr
    obtain ⟨c, hc, rfl⟩ := List.mem_map.mp hr
    obtain ⟨s, hs, hcs⟩ := List.mem_flatMap.mp hc
    exact Session.valid_effects (hfit s hs) _ (List.mem_map_of_mem hcs)
  have hreplay : replay (runSessions ss) = (ss.flatMap Session.effects).map Call.record := by
    rw [hfile]
    exact Framing.parseAll_torn hvalid htorn
  show (replay (runSessions ss)).foldl applyRecord ∅ = _
  rw [hreplay, foldl_applyRecord]
  rfl

/-- Two sessions with acknowledged calls, the second torn five bytes into a
frame, then a reopen that writes nothing. -/
theorem durable_sessions_torn_last :
    let ss : List Session :=
      [⟨[.put [97] [1], .put [98] [2]], none⟩,
        ⟨[.delete [97]], some (.put [98] [3], 5)⟩, ⟨[], none⟩]
    (openStore (runSessions ss)).data = expected ss ∧
      (openStore (runSessions ss)).get [98] = some [2] :=
  ⟨durable_sessions (by decide +kernel) (by decide +kernel), by decide +kernel⟩

/-! ## §4  A store with a whole log -/

/-- Everything appended has been synced, the file has no torn frame, and the map is
what it replays to. -/
def Intact (s : Store) : Prop :=
  ∃ cs : List Call, (∀ c ∈ cs, (encodeBody c.record).length ≤ maxBodySize) ∧
    s.log.pending = [] ∧ s.log.file = framing.frames (cs.map Call.record) ∧
    s.data = applyAll ∅ (cs.map Call.write)

theorem openStore_frames {cs : List Call}
    (hfit : ∀ c ∈ cs, (encodeBody c.record).length ≤ maxBodySize) :
    Intact (openStore (framing.frames (cs.map Call.record))) ∧
      (openStore (framing.frames (cs.map Call.record))).data = applyAll ∅ (cs.map Call.write) := by
  have hvalid : ∀ r ∈ cs.map Call.record, framing.Valid r := by
    intro r hr
    obtain ⟨c, hc, rfl⟩ := List.mem_map.mp hr
    exact hfit c hc
  have hdata : (openStore (framing.frames (cs.map Call.record))).data =
      applyAll ∅ (cs.map Call.write) := by
    have hreplay : replay (framing.frames (cs.map Call.record)) = cs.map Call.record := by
      have := Framing.parseAll_torn hvalid (Or.inl rfl : framing.Torn [])
      rwa [List.append_nil] at this
    show (replay _).foldl applyRecord ∅ = _
    rw [hreplay, foldl_applyRecord]
  exact ⟨⟨cs, hfit, rfl, rfl, hdata⟩, hdata⟩

theorem intact_open_nil : Intact (openStore []) :=
  (openStore_frames (List.forall_mem_nil _)).1

namespace Intact

variable {s : Store} {c : Call}

theorem call (h : s.Intact) (hfit : (encodeBody c.record).length ≤ maxBodySize) :
    (s.call c).Intact := by
  obtain ⟨cs, hcs, hpending, hfile, hdata⟩ := h
  refine ⟨cs ++ [c], ?_, ?_, ?_, ?_⟩
  · intro d hd
    rcases List.mem_append.mp hd with hd | hd
    · exact hcs d hd
    · rw [List.mem_singleton.mp hd]
      exact hfit
  · rw [call_log]
    rfl
  · rw [call_log, List.map_append, Framing.frames_append, ← hfile]
    show s.log.file ++ (s.log.pending ++ encode c.record) = _ ++ (encode c.record ++ [])
    rw [hpending, List.append_nil]
    rfl
  · rw [List.map_append, Foundation.applyAll_append, ← hdata]
    exact call_data s c

/-- A crash between two calls. -/
theorem reopen (h : s.Intact) :
    (openStore s.log.file).Intact ∧ (openStore s.log.file).data = s.data := by
  obtain ⟨cs, hcs, -, hfile, hdata⟩ := h
  rw [hfile, hdata]
  exact openStore_frames hcs

/-- A crash in a call whose whole frame survives: the call counts. -/
theorem reopen_call (h : s.Intact) (hfit : (encodeBody c.record).length ≤ maxBodySize) {n : ℕ}
    (hn : (encode c.record).length ≤ n) :
    (openStore ((s.log.append c.record).crash n)).Intact ∧
      (openStore ((s.log.append c.record).crash n)).data = (s.call c).data := by
  have hfile : (s.log.append c.record).crash n = (s.call c).log.file := by
    obtain ⟨cs, -, hpending, -, -⟩ := h
    rw [call_log]
    show s.log.file ++ (s.log.pending ++ encode c.record).take n =
      s.log.file ++ (s.log.pending ++ encode c.record)
    rw [hpending, List.nil_append, List.take_of_length_le hn]
  rw [hfile]
  exact (h.call hfit).reopen

end Intact

end KVEngine.Store
