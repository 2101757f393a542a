import AzooKey.Lib.Getline
import AzooKey.Lib.Mealy
import AzooKey.Lib.RecentWindow
import AzooKey.Lib.StreamExtraction

/-!
# The history of host runs

The Host marks itself as running when it starts and as stopped when it exits cleanly; a
start that finds the mark knows that the run before crashed. `RecordHostStart` folds one
start into the history that is kept in a file: times that have left the window are
dropped, and of those that are left the last ones are kept. The results are that the
file reads back as it was written (`readHostRunHistory_runHistoryText`), and that
neither the dropping nor the limits change the verdict: what the history holds is the
end of what a full record of the crashes would hold of the window (`recorded_eq`).
-/

namespace AzooKey.Host

open Bytes

/-- `kSafeModeCrashThreshold`. -/
def safeModeCrashThreshold : ℕ := 3

/-- `kSafeModeCrashWindow`, in milliseconds. -/
def safeModeCrashWindow : ℤ := 60000

/-- `kRunHistoryHeader`. -/
def runHistoryHeader : Bytes := utf8 "azookey-host-run v1"

/-- `kMaxRunHistoryBytes`. -/
def maxRunHistoryBytes : ℕ := 4096

/-- `kMaxRecordedCrashes`. -/
def maxRecordedCrashes : ℕ := 32

/-- `HostRunHistory`. -/
structure HostRunHistory where
  running : Bool := false
  pid : UInt32 := 0
  processStart : UInt64 := 0
  crashEpochMs : List Int64 := []
deriving DecidableEq

/-- `HostStartOutcome`. -/
structure HostStartOutcome where
  next : HostRunHistory
  previousRunCrashed : Bool
  recentCrashes : ℕ
  crashLoop : Bool

/-- A time of the clock: the window before it is within 64 bits. -/
structure EpochMs where
  ms : Int64
  window_fits : -2 ^ 63 + safeModeCrashWindow ≤ ms.toInt

/-- The window fits before every time that is not negative. -/
theorem window_fits_ofSeconds (seconds : UInt32) :
    -2 ^ 63 + safeModeCrashWindow ≤ (Int64.ofInt (1000 * seconds.toNat)).toInt := by
  have hlt := seconds.toNat_lt
  rw [Int64.toInt_ofInt_of_le (by omega) (by omega), safeModeCrashWindow]
  omega

/-- A time of the clock, in seconds from its start. -/
def EpochMs.ofSeconds (seconds : UInt32) : EpochMs :=
  ⟨Int64.ofInt (1000 * seconds.toNat), window_fits_ofSeconds seconds⟩

/-! ## The functions of the source -/

/-- A time inside the window of a start, and not ahead of it. -/
def inWindow (now : EpochMs) (time : Int64) : Bool :=
  let windowStart := now.ms.toInt - safeModeCrashWindow
  windowStart < time.toInt && time.toInt ≤ now.ms.toInt

/-- `RecordHostStart`. -/
def recordHostStart (previous : HostRunHistory) (pid : UInt32) (processStart : UInt64)
    (now : EpochMs) : HostStartOutcome :=
  let crashes := previous.crashEpochMs.filter (inWindow now)
  let crashes := if previous.running then crashes ++ [now.ms] else crashes
  let crashes := if crashes.length > maxRecordedCrashes then
      crashes.drop (crashes.length - maxRecordedCrashes)
    else crashes
  { next := ⟨true, pid, processStart, crashes⟩
    previousRunCrashed := previous.running
    recentCrashes := crashes.length
    crashLoop := previous.running && safeModeCrashThreshold ≤ crashes.length }

/-- `RecordHostCleanExit`. -/
def recordHostCleanExit : HostRunHistory := {}

/-- The loop of `ReadHostRunHistory` over the lines that are left. -/
def readCrashes : List Bytes → List Int64 → Option (List Int64)
  | [], crashes => some crashes
  | line :: lines, crashes =>
    if line = [] then readCrashes lines crashes
    else
      match extractInt64 line with
      | none => none
      | some (time, _) =>
        if (crashes ++ [time]).length > maxRecordedCrashes then none
        else readCrashes lines (crashes ++ [time])

/-- The status line of `ReadHostRunHistory`. -/
def readStatus (line : Bytes) : Option HostRunHistory :=
  match extractWord line with
  | none => none
  | some (word, rest) =>
    if word = utf8 "running" then do
      let (pid, rest) ← extractUnsigned (2 ^ 32) rest
      let (processStart, _) ← extractUnsigned (2 ^ 64) rest
      return { running := true, pid := UInt32.ofNat pid, processStart := UInt64.ofNat processStart }
    else if word = utf8 "stopped" then some {}
    else none

/-- **`ReadHostRunHistory`**, from what the file holds, if it can be read. -/
def readHostRunHistory (file : Option Bytes) : Option HostRunHistory := do
  let content := (← file).take (maxRunHistoryBytes + 1)
  if content.length > maxRunHistoryBytes then none
  let (line, lines) ← getline 0x0a content
  if line ≠ runHistoryHeader then none
  let (line, lines) ← getline 0x0a lines
  let history ← readStatus line
  let crashes ← readCrashes (pieces 0x0a lines) []
  return { history with crashEpochMs := crashes }

/-- The status line of `WriteHostRunHistory`. -/
def statusText (history : HostRunHistory) : Bytes :=
  if history.running then
    utf8 "running " ++ (decimalDigits history.pid.toNat
      ++ 0x20 :: decimalDigits history.processStart.toNat)
  else utf8 "stopped"

/-- **What `WriteHostRunHistory` writes.** -/
def runHistoryText (history : HostRunHistory) : Bytes :=
  runHistoryHeader ++ 0x0a :: (statusText history ++ 0x0a ::
    history.crashEpochMs.flatMap (fun time => printInt time.toInt ++ [0x0a]))

/-! ## The file -/

/-- A history that fits its file: one that is not running has no process. -/
def HostRunHistory.Fits (history : HostRunHistory) : Prop :=
  history.crashEpochMs.length ≤ maxRecordedCrashes
    ∧ (history.running = false → history.pid = 0 ∧ history.processStart = 0)

/-- The digits of a number of 64 bits are few. -/
theorem length_decimalDigits_le {n : ℕ} (h : n < 2 ^ 64) : (decimalDigits n).length ≤ 20 := by
  rw [length_decimalDigits]
  by_cases hn : n = 0
  · rw [hn, Nat.log_zero_right]
    decide
  · have hlog : Nat.log 10 n < 20 := Nat.log_lt_of_lt_pow hn (lt_of_lt_of_le h (by norm_num))
    omega

/-- A time is written in few bytes. -/
theorem length_printInt_le (n : Int64) : (printInt n.toInt).length ≤ 21 := by
  have hlow := n.le_toInt
  have hhigh := n.toInt_lt
  have hdigits := length_decimalDigits_le (n := n.toInt.natAbs) (by omega)
  unfold printInt
  split
  · rw [List.length_cons]
    omega
  · omega

/-- A status line is short. -/
theorem length_statusText_le (history : HostRunHistory) : (statusText history).length ≤ 49 := by
  have hpid := length_decimalDigits_le (n := history.pid.toNat)
    (lt_trans history.pid.toNat_lt (by norm_num))
  have hstart := length_decimalDigits_le history.processStart.toNat_lt
  unfold statusText
  split
  · have hword : (utf8 "running ").length = 8 := by decide
    rw [List.length_append, List.length_append, List.length_cons, hword]
    omega
  · have hword : (utf8 "stopped").length = 7 := by decide
    omega

/-- **A history is written within the limit of its file.** -/
theorem length_runHistoryText_le {history : HostRunHistory}
    (h : history.crashEpochMs.length ≤ maxRecordedCrashes) :
    (runHistoryText history).length ≤ maxRunHistoryBytes := by
  have hcrashes : ∀ crashes : List Int64,
      (crashes.flatMap (fun time => printInt time.toInt ++ [0x0a])).length ≤ 22 * crashes.length := by
    intro crashes
    induction crashes with
    | nil => exact le_rfl
    | cons time crashes ih =>
      have hone := length_printInt_le time
      rw [List.flatMap_cons, List.length_append, List.length_append, List.length_singleton,
        List.length_cons]
      omega
  have hall := hcrashes history.crashEpochMs
  have hstatus := length_statusText_le history
  have hheader : runHistoryHeader.length = 19 := by decide
  unfold maxRecordedCrashes at h
  rw [runHistoryText, List.length_append, List.length_cons, List.length_append, List.length_cons,
    hheader, maxRunHistoryBytes]
  omega

/-- The octets of a time are digits and a sign. -/
theorem newline_notMem_printInt (n : ℤ) : 0x0a ∉ printInt n := by
  have hdigits : (0x0a : UInt8) ∉ decimalDigits n.natAbs :=
    fun h => absurd (isDigitByte_of_mem_decimalDigits h) (by decide)
  unfold printInt
  split
  · exact List.not_mem_cons_of_ne_of_not_mem (by decide) hdigits
  · exact hdigits

/-- A time is not empty. -/
theorem printInt_ne_nil (n : ℤ) : printInt n ≠ [] := by
  unfold printInt
  split
  · exact List.cons_ne_nil _ _
  · exact decimalDigits_ne_nil _

/-- The times are read back. -/
theorem readCrashes_printInt (times crashes : List Int64)
    (h : (crashes ++ times).length ≤ maxRecordedCrashes) :
    readCrashes (times.map (fun time => printInt time.toInt)) crashes = some (crashes ++ times) := by
  induction times generalizing crashes with
  | nil => rw [List.map_nil, readCrashes, List.append_nil]
  | cons time times ih =>
    have hsplit : crashes ++ time :: times = crashes ++ [time] ++ times := by
      rw [List.append_assoc, List.singleton_append]
    rw [hsplit] at h ⊢
    have hlength : ¬ (crashes ++ [time]).length > maxRecordedCrashes := by
      rw [List.length_append] at h
      omega
    rw [List.map_cons, readCrashes, if_neg (printInt_ne_nil _), extractInt64_printInt]
    dsimp only
    rw [if_neg hlength]
    exact ih _ h

/-- The status is read back. -/
theorem readStatus_statusText {history : HostRunHistory}
    (h : history.running = false → history.pid = 0 ∧ history.processStart = 0) :
    readStatus (statusText history) = some { history with crashEpochMs := [] } := by
  obtain ⟨running, pid, processStart, crashes⟩ := history
  cases running with
  | false =>
    obtain ⟨hpid, hstart⟩ := h rfl
    cases hpid
    cases hstart
    rfl
  | true =>
    have hword : utf8 "running " = utf8 "running" ++ [0x20] := by decide
    have htext : statusText ⟨true, pid, processStart, crashes⟩ = utf8 "running" ++ 0x20 ::
        (decimalDigits pid.toNat ++ 0x20 :: (decimalDigits processStart.toNat ++ [])) := by
      rw [statusText, if_pos rfl, hword, List.append_nil, List.append_assoc, List.singleton_append]
    have hspace : NoDigit (0x20 :: (decimalDigits processStart.toNat ++ [])) := by
      intro c hc
      cases hc
      decide
    have hfirst := extractUnsigned_decimalDigits pid.toNat_lt hspace
    have hsecond := @extractUnsigned_decimalDigits (2 ^ 64) processStart.toNat processStart.toNat_lt []
      (fun c hc => by cases hc)
    have hall : (utf8 "running").all (fun c => !isSpace c) = true := by decide
    have hchars : ∀ c ∈ utf8 "running", isSpace c = false :=
      fun c hc => Bool.not_eq_true' _ ▸ List.all_eq_true.mp hall c hc
    rw [htext, readStatus, extractWord_append (by decide) hchars]
    dsimp only
    rw [if_pos rfl]
    simp only [hfirst, hsecond, Option.bind_eq_bind, Option.bind_some, Option.pure_def,
      UInt32.ofNat_toNat, UInt64.ofNat_toNat]

/-- The status line is one line. -/
theorem newline_notMem_statusText (history : HostRunHistory) : 0x0a ∉ statusText history := by
  have hdigits : ∀ n, (0x0a : UInt8) ∉ decimalDigits n :=
    fun n h => absurd (isDigitByte_of_mem_decimalDigits h) (by decide)
  unfold statusText
  split
  · intro h
    rcases List.mem_append.mp h with h | h
    · exact absurd h (by decide)
    · rcases List.mem_append.mp h with h | h
      · exact hdigits _ h
      · rcases List.mem_cons.mp h with h | h
        · exact absurd h (by decide)
        · exact hdigits _ h
  · decide

/-- **A history that fits its file is read back.** -/
theorem readHostRunHistory_runHistoryText {history : HostRunHistory} (h : history.Fits) :
    readHostRunHistory (some (runHistoryText history)) = some history := by
  have hlength := length_runHistoryText_le h.1
  have htake : (runHistoryText history).take (maxRunHistoryBytes + 1) = runHistoryText history :=
    List.take_of_length_le (by omega)
  have hlines : pieces 0x0a (history.crashEpochMs.flatMap (fun time => printInt time.toInt ++ [0x0a]))
      = history.crashEpochMs.map (fun time => printInt time.toInt) := by
    have hmap : history.crashEpochMs.flatMap (fun time => printInt time.toInt ++ [0x0a])
        = (history.crashEpochMs.map (fun time => printInt time.toInt)).flatMap
            (fun line => line ++ [0x0a]) := by
      rw [List.flatMap_map]
    rw [hmap]
    refine pieces_flatMap (fun line hline => ?_)
    obtain ⟨time, -, rfl⟩ := List.mem_map.mp hline
    exact newline_notMem_printInt _
  unfold readHostRunHistory
  simp only [Option.bind_eq_bind, Option.bind_some, htake]
  rw [if_neg (by omega), runHistoryText, getline_append (by decide), Option.bind_some]
  dsimp only
  rw [if_neg (by simp), getline_append (newline_notMem_statusText history), Option.bind_some]
  dsimp only
  rw [readStatus_statusText h.2, hlines, Option.bind_some, readCrashes_printInt _ [] h.1]
  rfl

/-! ## Runs of the Host -/

/-- A run of the Host: when it starts, as what process, and whether it exits cleanly. -/
structure HostRun where
  now : EpochMs
  pid : UInt32
  processStart : UInt64
  clean : Bool

/-- The start of a run, on the history in the file. -/
def startHost (file : Option Bytes) (r : HostRun) : HostStartOutcome :=
  recordHostStart ((readHostRunHistory file).getD {}) r.pid r.processStart r.now

/-- A run: what it leaves in the file, and the outcome of its start. -/
def hostRun (file : Option Bytes) (r : HostRun) : Option Bytes × HostStartOutcome :=
  (some (runHistoryText (if r.clean then recordHostCleanExit else (startHost file r).next)),
    startHost file r)

/-- The file after some runs; there is none before the first. -/
def fileAfter (runs : List HostRun) : Option Bytes := (Mealy.run hostRun none runs).1

/-- The outcome of a start after some runs. -/
def outcomeAfter (runs : List HostRun) (r : HostRun) : HostStartOutcome := startHost (fileAfter runs) r

/-- Whether the last run crashed. -/
def lastCrashed (runs : List HostRun) : Bool := runs.getLast?.any (fun r => !r.clean)

/-- **The starts since the last clean exit that found that the run before had crashed**:
all of them but the first. -/
def crashStarts (runs : List HostRun) (r : HostRun) : List HostRun :=
  (runs.rtakeWhile (fun q => !q.clean) ++ [r]).tail

/-- **Those of them inside the window**, and not ahead of the start. -/
def recentCrashStarts (runs : List HostRun) (r : HostRun) : List HostRun :=
  (crashStarts runs r).filter (fun q => inWindow r.now q.now.ms)

/-! ## What the file holds -/

/-- The last crashes are kept. -/
theorem crashEpochMs_recordHostStart (previous : HostRunHistory) (pid : UInt32)
    (processStart : UInt64) (now : EpochMs) :
    (recordHostStart previous pid processStart now).next.crashEpochMs
      = (previous.crashEpochMs.filter (inWindow now)
          ++ if previous.running then [now.ms] else []).rtake maxRecordedCrashes := by
  have hcrashes : (if previous.running then previous.crashEpochMs.filter (inWindow now) ++ [now.ms]
      else previous.crashEpochMs.filter (inWindow now))
      = previous.crashEpochMs.filter (inWindow now)
        ++ if previous.running then [now.ms] else [] := by
    split
    · rfl
    · rw [List.append_nil]
  unfold recordHostStart
  dsimp only
  rw [hcrashes]
  generalize previous.crashEpochMs.filter (inWindow now)
    ++ (if previous.running then [now.ms] else []) = crashes
  rw [List.rtake]
  split
  · rfl
  · next h =>
    rw [Nat.sub_eq_zero_of_le (Nat.le_of_not_lt h), List.drop_zero]

/-- What a start writes fits its file. -/
theorem fits_recordHostStart (previous : HostRunHistory) (pid : UInt32) (processStart : UInt64)
    (now : EpochMs) : (recordHostStart previous pid processStart now).next.Fits := by
  refine ⟨?_, fun h => by cases h⟩
  rw [crashEpochMs_recordHostStart]
  exact RecentWindow.length_rtake_le _ _

/-- What a clean exit writes fits its file. -/
theorem fits_recordHostCleanExit : recordHostCleanExit.Fits :=
  ⟨Nat.zero_le _, fun _ => ⟨rfl, rfl⟩⟩

/-- **The history in the file** is the one that the last run wrote. -/
theorem readHostRunHistory_fileAfter (runs : List HostRun) (q : HostRun) :
    readHostRunHistory (fileAfter (runs ++ [q]))
      = some (if q.clean then recordHostCleanExit else (outcomeAfter runs q).next) := by
  rw [fileAfter, Mealy.run_concat, hostRun]
  refine readHostRunHistory_runHistoryText ?_
  split
  · exact fits_recordHostCleanExit
  · exact fits_recordHostStart _ _ _ _

/-- The times that a start records. -/
def recorded (runs : List HostRun) (r : HostRun) : List Int64 :=
  (outcomeAfter runs r).next.crashEpochMs

/-- A start that finds no mark. -/
theorem recorded_of_not_lastCrashed {runs : List HostRun} (h : lastCrashed runs = false) (r : HostRun) :
    recorded runs r = [] ∧ (outcomeAfter runs r).previousRunCrashed = false
      ∧ crashStarts runs r = [] := by
  induction runs using List.reverseRecOn with
  | nil => exact ⟨rfl, rfl, rfl⟩
  | append_singleton runs q _ =>
    have hclean : q.clean = true := by
      rw [lastCrashed, List.getLast?_concat, Option.any_some] at h
      exact Bool.not_eq_false' .. ▸ h
    have hfile := readHostRunHistory_fileAfter runs q
    rw [if_pos hclean] at hfile
    have hstart : outcomeAfter (runs ++ [q]) r
        = recordHostStart recordHostCleanExit r.pid r.processStart r.now := by
      rw [outcomeAfter, startHost, hfile, Option.getD_some]
    refine ⟨?_, ?_, ?_⟩
    · rw [recorded, hstart]
      rfl
    · rw [hstart]
      rfl
    · rw [crashStarts, List.rtakeWhile_concat_neg _ _ _ (by rw [hclean]; decide)]
      rfl

/-- A start that finds the mark. -/
theorem recorded_concat {runs : List HostRun} {q : HostRun} (hq : q.clean = false) (r : HostRun) :
    recorded (runs ++ [q]) r
        = ((recorded runs q).filter (inWindow r.now) ++ [r.now.ms]).rtake maxRecordedCrashes
      ∧ (outcomeAfter (runs ++ [q]) r).previousRunCrashed = true
      ∧ crashStarts (runs ++ [q]) r = crashStarts runs q ++ [r] := by
  have hfile := readHostRunHistory_fileAfter runs q
  rw [hq, if_neg (by decide)] at hfile
  have hstart : outcomeAfter (runs ++ [q]) r
      = recordHostStart (outcomeAfter runs q).next r.pid r.processStart r.now := by
    rw [outcomeAfter, startHost, hfile, Option.getD_some]
  have hrunning : (outcomeAfter runs q).next.running = true := rfl
  refine ⟨?_, ?_, ?_⟩
  · rw [recorded, hstart, crashEpochMs_recordHostStart, hrunning, if_pos rfl]
    rfl
  · rw [hstart]
    exact hrunning
  · rw [crashStarts, crashStarts, List.rtakeWhile_concat_pos _ _ _ (by rw [hq]; decide)]
    have hne : runs.rtakeWhile (fun q => !q.clean) ++ [q] ≠ [] := by simp
    rw [List.tail_append_of_ne_nil hne]

/-! ## The verdict -/

/-- A start is inside its own window. -/
theorem inWindow_self (now : EpochMs) : inWindow now now.ms = true := by
  rw [inWindow, safeModeCrashWindow, Bool.and_eq_true, decide_eq_true_iff, decide_eq_true_iff]
  omega

/-- What is inside a window and what is not. -/
theorem inWindow_iff (now : EpochMs) (time : Int64) : inWindow now time = true
    ↔ now.ms.toInt - safeModeCrashWindow < time.toInt ∧ time.toInt ≤ now.ms.toInt := by
  rw [inWindow, Bool.and_eq_true, decide_eq_true_iff, decide_eq_true_iff]

/-- The starts that found a crash are starts. -/
theorem mem_of_mem_crashStarts {runs : List HostRun} {r g : HostRun} (h : g ∈ crashStarts runs r) :
    g ∈ runs ++ [r] := by
  rcases List.mem_append.mp (List.mem_of_mem_tail h) with h | h
  · exact List.mem_append_left _ ((List.rtakeWhile_suffix _ _).subset h)
  · exact List.mem_append_right _ h

/-- They are in the order of the runs. -/
theorem crashStarts_sublist (runs : List HostRun) (r : HostRun) :
    (crashStarts runs r).Sublist (runs ++ [r]) :=
  (List.tail_sublist _).trans ((List.rtakeWhile_suffix _ _).sublist.append_right _)

/-- Starts at times that do not go back. -/
def InOrder (runs : List HostRun) : Prop :=
  runs.Pairwise (fun a b => a.now.ms.toInt ≤ b.now.ms.toInt)

/-- The recent starts of a run with one crash more. -/
theorem recentCrashStarts_concat {runs : List HostRun} {q : HostRun} (hq : q.clean = false)
    (r : HostRun) : recentCrashStarts (runs ++ [q]) r
      = (crashStarts runs q).filter (fun g => inWindow r.now g.now.ms) ++ [r] := by
  have hself : [r].filter (fun g => inWindow r.now g.now.ms) = [r] :=
    List.filter_cons_of_pos (inWindow_self r.now)
  rw [recentCrashStarts, (recorded_concat hq r).2.2, List.filter_append, hself]

/-- The last of some runs crashed, or the last exit was clean. -/
theorem lastCrashed_concat (runs : List HostRun) (q : HostRun) :
    lastCrashed (runs ++ [q]) = !q.clean := by
  rw [lastCrashed, List.getLast?_concat, Option.any_some]

/-- **What is recorded are recent starts that found a crash**, whatever the clock does. -/
theorem recorded_sublist (runs : List HostRun) (r : HostRun) :
    (recorded runs r).Sublist ((recentCrashStarts runs r).map (fun g => g.now.ms)) := by
  induction runs using List.reverseRecOn generalizing r with
  | nil =>
    rw [(@recorded_of_not_lastCrashed [] rfl r).1]
    exact List.nil_sublist _
  | append_singleton runs q ih =>
    cases hq : q.clean with
    | true =>
      rw [(recorded_of_not_lastCrashed (by rw [lastCrashed_concat, hq]; rfl) r).1]
      exact List.nil_sublist _
    | false =>
      rw [(recorded_concat hq r).1, recentCrashStarts_concat hq, List.map_append]
      refine (RecentWindow.rtake_suffix _ _).sublist.trans (List.Sublist.append ?_ (List.Sublist.refl _))
      have hall : (recorded runs q).Sublist ((crashStarts runs q).map (fun g => g.now.ms)) :=
        (ih q).trans (List.filter_sublist.map _)
      have hwindow := hall.filter (inWindow r.now)
      rw [List.filter_map] at hwindow
      exact hwindow

/-- **What is recorded is the end of all the recent starts** that found a crash, as long
as times do not go back. -/
theorem recorded_eq {runs : List HostRun} {r : HostRun} (h : InOrder (runs ++ [r])) :
    recorded runs r
      = ((recentCrashStarts runs r).map (fun g => g.now.ms)).rtake maxRecordedCrashes := by
  induction runs using List.reverseRecOn generalizing r with
  | nil => rfl
  | append_singleton runs q ih =>
    cases hq : q.clean with
    | true =>
      obtain ⟨hrecorded, -, hstarts⟩ :=
        @recorded_of_not_lastCrashed (runs ++ [q]) (by rw [lastCrashed_concat, hq]; rfl) r
      rw [hrecorded, recentCrashStarts, hstarts]
      rfl
    | false =>
      obtain ⟨hruns, -, hqr⟩ := List.pairwise_append.mp h
      have hle : q.now.ms.toInt ≤ r.now.ms.toInt :=
        hqr q (List.mem_append_right _ (List.mem_singleton.mpr rfl)) r (List.mem_singleton.mpr rfl)
      -- the starts are in the order of their times, and none is behind the last one
      have hstarts := hruns.sublist (crashStarts_sublist runs q)
      have hlast : ∀ g ∈ crashStarts runs q, g.now.ms.toInt ≤ q.now.ms.toInt := by
        intro g hg
        rcases List.mem_append.mp (mem_of_mem_crashStarts hg) with hg | hg
        · exact (List.pairwise_append.mp hruns).2.2 g hg q (List.mem_singleton.mpr rfl)
        · rw [List.mem_singleton.mp hg]
      have hsuffix : ((recentCrashStarts runs q).map (fun g => g.now.ms)).Pairwise
          (fun a b => inWindow r.now a → inWindow r.now b) := by
        refine List.pairwise_map.mpr ((hstarts.sublist List.filter_sublist).imp_of_mem ?_)
        intro a b _ hb hab ha
        have hlate := hlast b (List.mem_filter.mp hb).1
        rw [inWindow_iff] at ha ⊢
        omega
      have hfilter : (recentCrashStarts runs q).filter (fun g => inWindow r.now g.now.ms)
          = (crashStarts runs q).filter (fun g => inWindow r.now g.now.ms) := by
        rw [recentCrashStarts, List.filter_filter]
        refine List.filter_congr (fun g hg => ?_)
        have hlate := hlast g hg
        rw [Bool.and_eq_left_iff_imp, inWindow_iff, inWindow_iff]
        omega
      rw [(recorded_concat hq r).1, ih hruns, RecentWindow.filter_rtake hsuffix,
        RecentWindow.rtake_append_rtake, recentCrashStarts_concat hq, List.map_append,
        List.filter_map]
      show ((List.map _ ((recentCrashStarts runs q).filter (fun g => inWindow r.now g.now.ms))) ++ _).rtake _ = _
      rw [hfilter]
      rfl

/-- The outcome of a start, from what it records. -/
theorem outcomeAfter_eq (runs : List HostRun) (r : HostRun) :
    (outcomeAfter runs r).recentCrashes = (recorded runs r).length
      ∧ (outcomeAfter runs r).previousRunCrashed = lastCrashed runs
      ∧ (outcomeAfter runs r).crashLoop
        = (lastCrashed runs && decide (safeModeCrashThreshold ≤ (recorded runs r).length)) := by
  have hcrashed : (outcomeAfter runs r).previousRunCrashed = lastCrashed runs := by
    induction runs using List.reverseRecOn with
    | nil => rfl
    | append_singleton runs q _ =>
      cases hq : q.clean with
      | true =>
        have hlast : lastCrashed (runs ++ [q]) = false := by rw [lastCrashed_concat, hq]; rfl
        rw [(recorded_of_not_lastCrashed hlast r).2.1, hlast]
      | false =>
        rw [(recorded_concat hq r).2.1, lastCrashed_concat, hq]
        rfl
  refine ⟨rfl, hcrashed, ?_⟩
  rw [← hcrashed]
  rfl

/-- **The verdict of a start**, after any runs. What was written is read back; nothing
counts that is ahead of the start or has left its window; and as long as times do not go
back, a crash loop is reported exactly when the last run crashed and enough starts since
the last clean exit found a crash within the window. -/
theorem crashLoop_spec (runs : List HostRun) (r : HostRun) :
    readHostRunHistory (some (runHistoryText (outcomeAfter runs r).next))
        = some (outcomeAfter runs r).next
      ∧ readHostRunHistory (some (runHistoryText recordHostCleanExit)) = some recordHostCleanExit
      ∧ ((outcomeAfter runs r).crashLoop = true → lastCrashed runs = true
          ∧ safeModeCrashThreshold ≤ (recentCrashStarts runs r).length)
      ∧ (InOrder (runs ++ [r]) → ((outcomeAfter runs r).crashLoop = true ↔ lastCrashed runs = true
          ∧ safeModeCrashThreshold ≤ (recentCrashStarts runs r).length)) := by
  obtain ⟨-, -, hloop⟩ := outcomeAfter_eq runs r
  refine ⟨readHostRunHistory_runHistoryText (fits_recordHostStart _ _ _ _),
    readHostRunHistory_runHistoryText fits_recordHostCleanExit, fun h => ?_, fun horder => ?_⟩
  · rw [hloop, Bool.and_eq_true, decide_eq_true_iff] at h
    have hle := (recorded_sublist runs r).length_le
    rw [List.length_map] at hle
    exact ⟨h.1, h.2.trans hle⟩
  · -- the limit is above the threshold
    have hlength : (recorded runs r).length
        = min maxRecordedCrashes (recentCrashStarts runs r).length := by
      rw [recorded_eq horder, List.rtake, List.length_drop, List.length_map]
      omega
    rw [hloop, Bool.and_eq_true, decide_eq_true_iff, hlength]
    refine and_congr Iff.rfl ?_
    rw [safeModeCrashThreshold, maxRecordedCrashes]
    omega

/-- A run that crashes. -/
def crashedAt (seconds : UInt32) : HostRun := ⟨.ofSeconds seconds, 1, 0, false⟩

/-- Three crashes within a minute are a loop; after a pause the same crashes are none. -/
theorem crashLoop_spec_crashed :
    (outcomeAfter [crashedAt 10, crashedAt 20, crashedAt 30] (crashedAt 40)).crashLoop = true
      ∧ (outcomeAfter [crashedAt 10, crashedAt 20, crashedAt 30] (crashedAt 85)).crashLoop = false := by
  have horder : InOrder [crashedAt 10, crashedAt 20, crashedAt 30, crashedAt 40] := by
    unfold InOrder
    decide
  refine ⟨((crashLoop_spec _ _).2.2.2 horder).mpr (by decide), ?_⟩
  refine Bool.eq_false_iff.mpr (fun hloop => ?_)
  have hmany := ((crashLoop_spec _ _).2.2.1 hloop).2
  exact absurd hmany (by decide)

end AzooKey.Host
