import Nimble.Common.EncodingPrimitives

/-! # The table verifier

For each partition the verifier checks that the partition's formats agree with each other, lists
its files, skips those whose name starts with a dot, and hands each other file to a task on an
executor. A task reads the file's last two bytes and increments one of two atomic counters:
`alphaFileCount` if they hold the Alpha magic number, `otherFileCount` otherwise. A file under two
bytes stops the process (`LOG(FATAL)`). After `join` the verifier compares the counters with the
number of files it handed out, and fails the partition if it holds any file of the other format.

The tasks run in any order, and each one's effect on the shared state is a single atomic
increment, so a run of the executor is a sequence of tasks, each chosen among those still
pending. Every such run that ends without stopping the process leaves the same counts, those of
the files' magic numbers; the count check never fails; and a run that reaches a file under two
bytes stops the process (`runSchedule_counts`). The verdict over a table is then independent of
the schedules (`verifyTable_exit_code`).
-/

namespace Nimble.TableVerifier

open Encoding

/-- `kAlphaMagicNumber`. -/
def kAlphaMagicNumber : ℕ := 0xA1FA

/-- `!parts.empty() && parts[parts.size() - 1].starts_with(".")` for the parts of
`folly::split('/', file, parts)`: the file is skipped. -/
def isSkipped (file : String) : Bool :=
  match (file.toList.splitOn '/').getLast? with
  | some last => last.head? = some '.'
  | none => false

/-- What a task learns of a file: `true` if its last two bytes, read as the `uint16_t` of a
little-endian host, are `kAlphaMagicNumber`, or the message of the `LOG(FATAL)` of a file under
two bytes. The file system's own failures (open, size, read) are not modelled. -/
def classifyFile (data : List UInt8) : Except String Bool :=
  if data.length < 2 then .error "File is corrupted."
  else .ok (readLE (data.drop (data.length - 2)) = kAlphaMagicNumber)

/-- A file the task counts in `alphaFileCount`. -/
def isAlphaFile (data : List UInt8) : Bool :=
  2 ≤ data.length && readLE (data.drop (data.length - 2)) = kAlphaMagicNumber

/-- A file the task counts in `otherFileCount`. -/
def isOtherFile (data : List UInt8) : Bool :=
  2 ≤ data.length && readLE (data.drop (data.length - 2)) ≠ kAlphaMagicNumber

structure ExecutorState where
  pending : List (List UInt8)
  alphaFileCount : ℕ
  otherFileCount : ℕ
  fatal : Option String

/-- The state `executor->add` leaves for the files handed out. -/
def ExecutorState.init (files : List (List UInt8)) : ExecutorState := ⟨files, 0, 0, none⟩

def completeTask (state : ExecutorState) (k : ℕ) (file : List UInt8) : ExecutorState :=
  match classifyFile file with
  | .error message => { state with pending := state.pending.eraseIdx k, fatal := some message }
  | .ok true =>
    { state with pending := state.pending.eraseIdx k,
                 alphaFileCount := (state.alphaFileCount + 1) % 2 ^ 32 }
  | .ok false =>
    { state with pending := state.pending.eraseIdx k,
                 otherFileCount := (state.otherFileCount + 1) % 2 ^ 32 }

def runTask (state : ExecutorState) (choice : ℕ) : ExecutorState :=
  if h : 0 < state.pending.length ∧ state.fatal = none then
    completeTask state (choice % state.pending.length)
      (state.pending.get ⟨choice % state.pending.length, Nat.mod_lt _ h.1⟩)
  else state

/-- A run of the executor: the tasks in the order the schedule picks them. -/
def runSchedule (state : ExecutorState) (schedule : List ℕ) : ExecutorState :=
  schedule.foldl runTask state

theorem classifyFile_eq_ok {data : List UInt8} {isAlpha : Bool}
    (h : classifyFile data = .ok isAlpha) :
    2 ≤ data.length ∧ isAlphaFile data = isAlpha ∧ isOtherFile data = !isAlpha := by
  unfold classifyFile at h
  split_ifs at h with hlen
  cases h
  refine ⟨by omega, ?_, ?_⟩ <;> simp [isAlphaFile, isOtherFile, not_lt.mp hlen]

theorem classifyFile_eq_error {data : List UInt8} {message : String}
    (h : classifyFile data = .error message) :
    data.length < 2 ∧ message = "File is corrupted." := by
  unfold classifyFile at h
  split_ifs at h with hlen
  cases h
  exact ⟨hlen, rfl⟩

def Accounts (files : List (List UInt8)) (state : ExecutorState) : Prop :=
  state.fatal = none → ∃ done : List (List UInt8), (done ++ state.pending).Perm files ∧
    (∀ file ∈ done, 2 ≤ file.length) ∧
    state.alphaFileCount = done.countP isAlphaFile % 2 ^ 32 ∧
    state.otherFileCount = done.countP isOtherFile % 2 ^ 32

theorem accounts_init (files : List (List UInt8)) : Accounts files (.init files) :=
  fun _ => ⟨[], List.Perm.refl _, by simp, rfl, rfl⟩

theorem perm_get_cons_eraseIdx {α : Type} (l : List α) (k : ℕ) (hk : k < l.length) :
    l.Perm (l.get ⟨k, hk⟩ :: l.eraseIdx k) := by
  rw [List.eraseIdx_eq_take_drop_succ]
  conv_lhs => rw [← List.take_append_drop k l, List.drop_eq_getElem_cons hk]
  exact List.perm_middle

theorem runTask_of_run {state : ExecutorState} (choice : ℕ)
    (h : 0 < state.pending.length ∧ state.fatal = none) :
    runTask state choice = completeTask state (choice % state.pending.length)
      (state.pending.get ⟨choice % state.pending.length, Nat.mod_lt _ h.1⟩) := by
  rw [runTask, dif_pos h]

theorem completeTask_of_error {state : ExecutorState} {k : ℕ} {file : List UInt8}
    {message : String} (h : classifyFile file = .error message) :
    completeTask state k file =
      { state with pending := state.pending.eraseIdx k, fatal := some message } := by
  rw [completeTask, h]

theorem completeTask_of_alpha {state : ExecutorState} {k : ℕ} {file : List UInt8}
    (h : classifyFile file = .ok true) :
    completeTask state k file =
      { state with pending := state.pending.eraseIdx k,
                   alphaFileCount := (state.alphaFileCount + 1) % 2 ^ 32 } := by
  rw [completeTask, h]

theorem completeTask_of_other {state : ExecutorState} {k : ℕ} {file : List UInt8}
    (h : classifyFile file = .ok false) :
    completeTask state k file =
      { state with pending := state.pending.eraseIdx k,
                   otherFileCount := (state.otherFileCount + 1) % 2 ^ 32 } := by
  rw [completeTask, h]

@[simp]
theorem pending_completeTask (state : ExecutorState) (k : ℕ) (file : List UInt8) :
    (completeTask state k file).pending = state.pending.eraseIdx k := by
  unfold completeTask
  split <;> rfl

theorem fatal_completeTask_of_ok {state : ExecutorState} {k : ℕ} {file : List UInt8}
    {isAlpha : Bool} (h : classifyFile file = .ok isAlpha) :
    (completeTask state k file).fatal = state.fatal := by
  rw [completeTask, h]
  cases isAlpha <;> rfl

theorem accounts_runTask {files : List (List UInt8)} {state : ExecutorState}
    (h : Accounts files state) (choice : ℕ) : Accounts files (runTask state choice) := by
  by_cases hrun : 0 < state.pending.length ∧ state.fatal = none
  · rw [runTask_of_run choice hrun]
    have hk : choice % state.pending.length < state.pending.length := Nat.mod_lt _ hrun.1
    obtain ⟨done, hperm, hlong, halpha, hother⟩ := h hrun.2
    have hmove : (done ++ [state.pending.get ⟨choice % state.pending.length, hk⟩] ++
        state.pending.eraseIdx (choice % state.pending.length)).Perm files := by
      rw [List.append_assoc, List.singleton_append]
      exact ((perm_get_cons_eraseIdx _ _ hk).append_left done).symm.trans hperm
    cases hclass : classifyFile (state.pending.get ⟨choice % state.pending.length, hk⟩) with
    | error message =>
      rw [completeTask_of_error hclass]
      intro hfatal
      cases hfatal
    | ok isAlpha =>
      obtain ⟨hlen, hisAlpha, hisOther⟩ := classifyFile_eq_ok hclass
      have hlong' : ∀ file ∈ done ++ [state.pending.get ⟨choice % state.pending.length, hk⟩],
          2 ≤ file.length := fun file hfile => by
        rcases List.mem_append.mp hfile with hfile | hfile
        · exact hlong file hfile
        · rw [List.mem_singleton.mp hfile]; exact hlen
      cases isAlpha with
      | true =>
        rw [completeTask_of_alpha hclass]
        refine fun _ => ⟨_, hmove, hlong', ?_, ?_⟩
        · simp only [List.countP_append, halpha, hisAlpha, List.countP_singleton, if_true]
          omega
        · simp only [List.countP_append, hother, List.countP_singleton, hisOther]
          simp
      | false =>
        rw [completeTask_of_other hclass]
        refine fun _ => ⟨_, hmove, hlong', ?_, ?_⟩
        · simp only [List.countP_append, halpha, List.countP_singleton, hisAlpha]
          simp
        · simp only [List.countP_append, hother, hisOther, List.countP_singleton,
            Bool.not_false, if_true]
          omega
  · rw [runTask, dif_neg hrun]
    exact h

theorem accounts_runSchedule {files : List (List UInt8)} :
    ∀ (schedule : List ℕ) (state : ExecutorState), Accounts files state →
      Accounts files (runSchedule state schedule)
  | [], _, h => h
  | choice :: schedule, state, h =>
    accounts_runSchedule schedule (runTask state choice) (accounts_runTask h choice)

def FatalOf (files : List (List UInt8)) (state : ExecutorState) : Prop :=
  state.pending ⊆ files ∧ ∀ message, state.fatal = some message →
    message = "File is corrupted." ∧ ∃ file ∈ files, file.length < 2

theorem fatalOf_init (files : List (List UInt8)) : FatalOf files (.init files) :=
  ⟨List.Subset.refl _, fun _ h => by cases h⟩

theorem fatalOf_runTask {files : List (List UInt8)} {state : ExecutorState}
    (h : FatalOf files state) (choice : ℕ) : FatalOf files (runTask state choice) := by
  by_cases hrun : 0 < state.pending.length ∧ state.fatal = none
  · rw [runTask_of_run choice hrun]
    have hk : choice % state.pending.length < state.pending.length := Nat.mod_lt _ hrun.1
    refine ⟨by rw [pending_completeTask]; exact (List.eraseIdx_subset _ _).trans h.1,
      fun message hmessage => ?_⟩
    cases hclass : classifyFile (state.pending.get ⟨choice % state.pending.length, hk⟩) with
    | error message' =>
      rw [completeTask_of_error hclass] at hmessage
      obtain ⟨hlen, rfl⟩ := classifyFile_eq_error hclass
      exact ⟨(Option.some.inj hmessage).symm, _, h.1 (List.get_mem _ _ _), hlen⟩
    | ok isAlpha =>
      rw [fatal_completeTask_of_ok hclass] at hmessage
      exact h.2 message hmessage
  · rw [runTask, dif_neg hrun]
    exact h

theorem fatalOf_runSchedule {files : List (List UInt8)} :
    ∀ (schedule : List ℕ) (state : ExecutorState), FatalOf files state →
      FatalOf files (runSchedule state schedule)
  | [], _, h => h
  | choice :: schedule, state, h =>
    fatalOf_runSchedule schedule (runTask state choice) (fatalOf_runTask h choice)

theorem runTask_of_idle {state : ExecutorState} (choice : ℕ)
    (h : state.pending = [] ∨ state.fatal ≠ none) : runTask state choice = state := by
  unfold runTask
  rw [dif_neg]
  rintro ⟨hpos, hfatal⟩
  rcases h with h | h
  · simp [h] at hpos
  · exact h hfatal

theorem runSchedule_of_idle {state : ExecutorState} (h : state.pending = [] ∨ state.fatal ≠ none) :
    ∀ schedule, runSchedule state schedule = state
  | [] => rfl
  | choice :: schedule => by
    rw [runSchedule, List.foldl_cons, runTask_of_idle choice h]
    exact runSchedule_of_idle h schedule

theorem length_pending_runTask {state : ExecutorState} (choice : ℕ)
    (h : 0 < state.pending.length ∧ state.fatal = none) :
    (runTask state choice).pending.length + 1 = state.pending.length := by
  have hk : choice % state.pending.length < state.pending.length := Nat.mod_lt _ h.1
  rw [runTask_of_run choice h, pending_completeTask, List.length_eraseIdx, if_pos hk]
  omega

theorem runSchedule_finishes :
    ∀ (schedule : List ℕ) (state : ExecutorState), state.pending.length ≤ schedule.length →
      (runSchedule state schedule).pending = [] ∨ (runSchedule state schedule).fatal ≠ none
  | [], state, h => .inl (List.eq_nil_of_length_eq_zero (Nat.le_zero.mp h))
  | choice :: schedule, state, h => by
    by_cases hrun : 0 < state.pending.length ∧ state.fatal = none
    · have := length_pending_runTask choice hrun
      exact runSchedule_finishes schedule (runTask state choice) (by simp at h; omega)
    · have hidle : state.pending = [] ∨ state.fatal ≠ none := by
        rw [not_and_or, not_lt, Nat.le_zero, List.length_eq_zero] at hrun
        exact hrun
      rw [runSchedule_of_idle hidle]
      exact hidle

theorem countP_alpha_add_other {files : List (List UInt8)} (h : ∀ file ∈ files, 2 ≤ file.length) :
    files.countP isAlphaFile + files.countP isOtherFile = files.length := by
  rw [List.length_eq_countP_add_countP isAlphaFile files]
  congr 1
  refine List.countP_congr fun file hfile => ?_
  simp [isAlphaFile, isOtherFile, h file hfile]

theorem counts_of_finished (files : List (List UInt8)) (schedule : List ℕ)
    (hfatal : (runSchedule (.init files) schedule).fatal = none)
    (hpending : (runSchedule (.init files) schedule).pending = []) :
    (∀ file ∈ files, 2 ≤ file.length) ∧
      (runSchedule (.init files) schedule).alphaFileCount = files.countP isAlphaFile % 2 ^ 32 ∧
      (runSchedule (.init files) schedule).otherFileCount = files.countP isOtherFile % 2 ^ 32 ∧
      ((runSchedule (.init files) schedule).alphaFileCount +
        (runSchedule (.init files) schedule).otherFileCount) % 2 ^ 32 = files.length % 2 ^ 32 := by
  obtain ⟨done, hperm, hlong, halpha, hother⟩ :=
    accounts_runSchedule schedule _ (accounts_init files) hfatal
  rw [hpending, List.append_nil] at hperm
  have hlong' : ∀ file ∈ files, 2 ≤ file.length := fun file hfile =>
    hlong file (hperm.mem_iff.mpr hfile)
  rw [halpha, hother, hperm.countP_eq, hperm.countP_eq]
  refine ⟨hlong', rfl, rfl, ?_⟩
  rw [← countP_alpha_add_other hlong']
  omega

/-- The executor's runs, in every order of its tasks. A schedule with a choice for every task
runs them all or stops the process. A run that ends with every task done and the process alive
read no file under two bytes, and its counters are the numbers of files with and without the
Alpha magic number (as `uint32_t`), so the `File count mismatch` check never fails; a file under
two bytes thus stops the process on every run that finishes. -/
theorem runSchedule_counts (files : List (List UInt8)) (schedule : List ℕ) :
    (files.length ≤ schedule.length →
      (runSchedule (.init files) schedule).pending = [] ∨
        (runSchedule (.init files) schedule).fatal ≠ none) ∧
    ((runSchedule (.init files) schedule).fatal = none →
      (runSchedule (.init files) schedule).pending = [] →
      (∀ file ∈ files, 2 ≤ file.length) ∧
      (runSchedule (.init files) schedule).alphaFileCount = files.countP isAlphaFile % 2 ^ 32 ∧
      (runSchedule (.init files) schedule).otherFileCount = files.countP isOtherFile % 2 ^ 32 ∧
      ((runSchedule (.init files) schedule).alphaFileCount +
        (runSchedule (.init files) schedule).otherFileCount) % 2 ^ 32 = files.length % 2 ^ 32) :=
  ⟨runSchedule_finishes schedule (.init files), counts_of_finished files schedule⟩

/-- The metadata and the listing of a partition: its name, its storage descriptor's formats and
serde, and the files `listStats` returns, with their contents. -/
structure Partition where
  name : String
  inputFormat : String
  outputFormat : String
  serializationLib : String
  files : List (String × List UInt8)

/-- The metadata check of a partition: whether it is an Alpha partition, or the message of the
`PRINT_ERROR` of formats that disagree. -/
def checkMetadata (partition : Partition) : Except String Bool :=
  if partition.inputFormat = "com.facebook.alpha.AlphaInputFormat" then
    if partition.outputFormat ≠ "com.facebook.alpha.AlphaOutputFormat" ∨
        partition.serializationLib ≠ "com.facebook.alpha.AlphaSerde" then
      .error ("Invalid partition metadata for Alpha partition: " ++ partition.name)
    else .ok true
  else
    if partition.inputFormat ≠ "com.facebook.hive.orc.OrcInputFormat" ∨
        partition.outputFormat ≠ "com.facebook.hive.orc.OrcOutputFormat" ∨
        partition.serializationLib ≠ "com.facebook.hive.orc.OrcSerde" then
      .error ("Invalid partition metadata for ORC partition: " ++ partition.name)
    else .ok false

/-- The files handed to the executor, in listing order. -/
def submittedFiles (partition : Partition) : List (List UInt8) :=
  (partition.files.filter fun file => !isSkipped file.1).map Prod.snd

/-- The `printResult` lambda: whether the partition fails, and the line it prints. Its counts are
`uint32_t` parameters. -/
def printResult (partitionName partitionType : String) (otherFileCount totalFileCount : ℕ) :
    Bool × String :=
  if 0 < otherFileCount then
    (true, "\x1b[31mError:\x1b[0m Partition " ++ partitionName ++ " is an " ++ partitionType ++
      " partition but contains " ++ toString otherFileCount ++ " non-" ++ partitionType ++
      " files out of " ++ toString totalFileCount ++ " files.")
  else
    (false, "\x1b[32mSuccess:\x1b[0m Partition " ++ partitionName ++ " is a valid " ++
      partitionType ++ " partition.")

@[simp]
theorem printResult_fst (partitionName partitionType : String)
    (otherFileCount totalFileCount : ℕ) :
    (printResult partitionName partitionType otherFileCount totalFileCount).1 =
      decide (0 < otherFileCount) := by
  unfold printResult
  split_ifs <;> simp_all

/-- How the verification of a partition ends: it passes, fails with the message of a
`PRINT_ERROR` or of `printResult` (the program returns `1`), stops the process with a
`LOG(FATAL)`, or the schedule ends before `join` would return. -/
inductive Outcome
  | passes
  | fails (message : String)
  | fatal (message : String)
  | unfinished
  deriving DecidableEq, Repr

/-- The loop body of `main` for one partition, its executor run along `schedule`. -/
def verifyPartition (partition : Partition) (schedule : List ℕ) : Outcome :=
  match checkMetadata partition with
  | .error message => .fails message
  | .ok isAlpha =>
    let files := submittedFiles partition
    let processedFileCount := files.length % 2 ^ 32
    let final := runSchedule (.init files) schedule
    match final.fatal with
    | some message => .fatal message
    | none =>
      if final.pending ≠ [] then .unfinished
      else if processedFileCount ≠ (final.alphaFileCount + final.otherFileCount) % 2 ^ 32 then
        .fails ("File count mismatch. Expected " ++ toString processedFileCount ++ ", actual " ++
          toString ((final.alphaFileCount + final.otherFileCount) % 2 ^ 32))
      else
        let result := printResult partition.name (if isAlpha then "Alpha" else "ORC")
          (if isAlpha then final.otherFileCount else final.alphaFileCount)
          (partition.files.length % 2 ^ 32)
        if result.1 then .fails result.2 else .passes

/-- `main` after the partitions are resolved: the exit code, `0` when every partition passes,
`1` at the first that fails, or the outcome that stops it. -/
def verifyTable : List Partition → List (List ℕ) → Outcome
  | [], _ => .fails "Partition filter returned no partitions."
  | partitions, schedules => verifyPartitions partitions schedules
where
  verifyPartitions : List Partition → List (List ℕ) → Outcome
    | [], _ => .passes
    | partition :: partitions, schedules =>
      match verifyPartition partition (schedules.headD []) with
      | .passes => verifyPartitions partitions schedules.tail
      | outcome => outcome

def partitionVerdict (partition : Partition) : Outcome :=
  match checkMetadata partition with
  | .error message => .fails message
  | .ok isAlpha =>
    if (submittedFiles partition).all fun file => 2 ≤ file.length then
      let result := printResult partition.name (if isAlpha then "Alpha" else "ORC")
        ((submittedFiles partition).countP (if isAlpha then isOtherFile else isAlphaFile) %
          2 ^ 32)
        (partition.files.length % 2 ^ 32)
      if result.1 then .fails result.2 else .passes
    else .fatal "File is corrupted."

theorem verifyPartition_eq_verdict (partition : Partition) (schedule : List ℕ)
    (hschedule : (submittedFiles partition).length ≤ schedule.length) :
    verifyPartition partition schedule = partitionVerdict partition := by
  unfold verifyPartition partitionVerdict
  cases hmeta : checkMetadata partition with
  | error message => rfl
  | ok isAlpha =>
    dsimp only
    obtain ⟨-, hfatal⟩ :=
      fatalOf_runSchedule schedule _ (fatalOf_init (submittedFiles partition))
    cases hstop : (runSchedule (.init (submittedFiles partition)) schedule).fatal with
    | some message =>
      obtain ⟨rfl, file, hfile, hlen⟩ := hfatal message hstop
      dsimp only
      rw [if_neg]
      simp only [List.all_eq_true, decide_eq_true_eq]
      exact fun hall => absurd (hall file hfile) (by omega)
    | none =>
      have hpending := (runSchedule_finishes schedule (.init (submittedFiles partition))
        hschedule).resolve_right (by simp [hstop])
      obtain ⟨hlong, halpha, hother, hsum⟩ := counts_of_finished _ schedule hstop hpending
      have hall : (submittedFiles partition).all (fun file => 2 ≤ file.length) = true := by
        simpa using hlong
      dsimp only
      rw [if_neg (by simp [hpending]), if_neg (by omega), if_pos hall, halpha, hother]
      cases isAlpha <;> rfl

/-- `main`'s verdict on the partitions, read sequentially. -/
def tableVerdict : List Partition → Outcome
  | [] => .fails "Partition filter returned no partitions."
  | partition :: partitions => firstVerdict (partition :: partitions)
where
  firstVerdict : List Partition → Outcome
    | [] => .passes
    | partition :: partitions =>
      match partitionVerdict partition with
      | .passes => firstVerdict partitions
      | outcome => outcome

theorem verifyPartitions_eq_firstVerdict :
    ∀ (partitions : List Partition) (schedules : List (List ℕ)),
      List.Forall₂ (fun partition schedule => (submittedFiles partition).length ≤ schedule.length)
        partitions schedules →
      verifyTable.verifyPartitions partitions schedules = tableVerdict.firstVerdict partitions
  | [], _, _ => rfl
  | partition :: partitions, schedule :: schedules, .cons hschedule hrest => by
    rw [verifyTable.verifyPartitions, tableVerdict.firstVerdict, List.headD_cons, List.tail_cons,
      verifyPartition_eq_verdict partition schedule hschedule,
      verifyPartitions_eq_firstVerdict partitions schedules hrest]

theorem firstVerdict_eq_passes :
    ∀ partitions : List Partition, tableVerdict.firstVerdict partitions = .passes ↔
      ∀ partition ∈ partitions, partitionVerdict partition = .passes
  | [] => by simp [tableVerdict.firstVerdict]
  | partition :: partitions => by
    rw [tableVerdict.firstVerdict, List.forall_mem_cons, ← firstVerdict_eq_passes partitions]
    split <;> simp_all

theorem partitionVerdict_eq_passes (partition : Partition) :
    partitionVerdict partition = .passes ↔ ∃ isAlpha, checkMetadata partition = .ok isAlpha ∧
      (∀ file ∈ submittedFiles partition, 2 ≤ file.length) ∧
      (submittedFiles partition).countP (if isAlpha then isOtherFile else isAlphaFile) %
        2 ^ 32 = 0 := by
  unfold partitionVerdict
  cases checkMetadata partition with
  | error message => simp
  | ok isAlpha =>
    dsimp only
    by_cases hall : ∀ file ∈ submittedFiles partition, 2 ≤ file.length
    · rw [if_pos (List.all_eq_true.mpr fun file hfile => decide_eq_true (hall file hfile))]
      simp only [printResult_fst, decide_eq_true_eq, Except.ok.injEq, exists_eq_left',
        and_iff_right hall]
      by_cases hwrong : 0 < (submittedFiles partition).countP
          (if isAlpha then isOtherFile else isAlphaFile) % 2 ^ 32
      · simp only [if_pos hwrong, reduceCtorEq, false_iff]
        omega
      · simp only [if_neg hwrong, true_iff]
        omega
    · rw [if_neg fun hall' => hall fun file hfile => of_decide_eq_true
        (List.all_eq_true.mp hall' file hfile)]
      simp [hall]

/-- The table verifier's exit, in every order of every partition's tasks: once each partition's
executor has run all its tasks, `main` ends as the sequential verdict says, whatever the
schedules; and it returns `0` exactly when there is a partition, every partition's formats agree,
none of its files (other than the skipped ones) is under two bytes, and the number of its files
of the other format is `0` as a `uint32_t`. -/
theorem verifyTable_exit_code (partitions : List Partition) (schedules : List (List ℕ))
    (hschedules : List.Forall₂
      (fun partition schedule => (submittedFiles partition).length ≤ schedule.length)
      partitions schedules) :
    verifyTable partitions schedules = tableVerdict partitions ∧
      (verifyTable partitions schedules = .passes ↔ partitions ≠ [] ∧
        ∀ partition ∈ partitions, ∃ isAlpha, checkMetadata partition = .ok isAlpha ∧
          (∀ file ∈ submittedFiles partition, 2 ≤ file.length) ∧
          (submittedFiles partition).countP (if isAlpha then isOtherFile else isAlphaFile) %
            2 ^ 32 = 0) := by
  have hverdict : verifyTable partitions schedules = tableVerdict partitions := by
    cases partitions with
    | nil => rfl
    | cons partition partitions =>
      exact verifyPartitions_eq_firstVerdict _ schedules hschedules
  refine ⟨hverdict, ?_⟩
  rw [hverdict]
  cases partitions with
  | nil => simp [tableVerdict]
  | cons partition partitions =>
    rw [tableVerdict, firstVerdict_eq_passes, and_iff_right (List.cons_ne_nil _ _)]
    simp only [partitionVerdict_eq_passes]

theorem verifyTable_exit_code_example :
    let partitions : List Partition :=
      [⟨"ds=1", "com.facebook.alpha.AlphaInputFormat", "com.facebook.alpha.AlphaOutputFormat",
        "com.facebook.alpha.AlphaSerde", [("ds=1/.tmp", []), ("ds=1/part-0", [7, 0xFA, 0xA1])]⟩]
    List.Forall₂ (fun partition schedule => (submittedFiles partition).length ≤ schedule.length)
        partitions [[4]] ∧
      verifyTable partitions [[4]] = .passes :=
  have hschedules := List.Forall₂.cons (by decide) List.Forall₂.nil
  ⟨hschedules, ((verifyTable_exit_code _ [[4]] hschedules).2.mpr
    ⟨List.cons_ne_nil _ _, List.forall_mem_singleton.mpr ⟨true, rfl, by decide, by decide⟩⟩)⟩

end Nimble.TableVerifier
