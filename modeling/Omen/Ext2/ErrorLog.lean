import Mathlib.Data.List.Basic
import Mathlib.Algebra.Group.Nat.Defs

/- The log of messages of the ext2 driver (`ext2_integrity.c`), newest message first. Messages
   are dropped when `error_count` reaches its limit; no function of the source raises it.
   Allocation is taken to succeed. -/
namespace OmenExt2
namespace ErrorLog

abbrev Text := List Char

def ext2MaxErrors : Nat := 1024
def ext2DeleteCycle : Nat := 128
def errorFuncSize : Nat := 64
def errorFileSize : Nat := 64
def errorWarn : Nat := 2
def textMaxSize : Nat := 65536

def strlen (s : Text) : Nat := min s.length textMaxSize

structure Report where
  error : Text
  function : Text
  file : Text
  line : Nat
  type : Nat
  deriving DecidableEq

structure ErrorMessage where
  msg : Text
  function : Text
  file : Option Text
  line : Nat
  type : Nat
  id : Nat
  deriving DecidableEq

structure Log where
  error_messages : List ErrorMessage
  error_count : Nat
  error_deletion_counter : Nat
  error_id : Nat
  errors_inhibited : Bool
  debug_base_path : Text

def fileTooLong : Text := "File name too long".toList

/-- The path below the base path. A path that is shorter than the base is too long as well, by
    the difference in 64 bits, and one that lies elsewhere is not stored. -/
def storedFile (base file : Text) : Option Text :=
  if errorFileSize < (strlen file + 2 ^ 64 - strlen base) % 2 ^ 64 then some fileTooLong
  else if strlen file ≤ strlen base then
    if errorFileSize < strlen file then some fileTooLong else some (file.take (strlen file))
  else if file.take (strlen base) = base.take (strlen base) then
    if errorFileSize < strlen file - strlen base then some fileTooLong
    else some ((file.drop (strlen base)).take (strlen file - strlen base))
  else none

def storedFunction (function : Text) : Text :=
  if errorFuncSize < strlen function then "Function name too long".toList
  else function.take (strlen function)

def Log.entry (log : Log) (report : Report) : ErrorMessage where
  msg := (report.error.map fun c => if c = '\n' then ' ' else c).take (strlen report.error)
  function := storedFunction report.function
  file := storedFile log.debug_base_path report.file
  line := report.line
  type := report.type
  id := log.error_id

def Log.insert (log : Log) (message : ErrorMessage) : Log :=
  { log with
    error_messages := message :: log.error_messages
    error_id := (log.error_id + 1) % 2 ^ 64 }

def Log.dropCycle (log : Log) : Log :=
  { log with
    error_messages := log.error_messages.take (log.error_messages.length - ext2DeleteCycle)
    error_count := (log.error_count + 2 ^ 32 - ext2DeleteCycle) % 2 ^ 32
    error_deletion_counter := (log.error_deletion_counter + 1) % 2 ^ 64 }

def integrityFile : Text := "drivers/vfs/generic/ext2/ext2_integrity.c".toList

def spaceWarning : Report where
  error := "Error count exceeded 1024, deleting oldest 128 errors".toList
  function := "ext2_make_space".toList
  file := integrityFile
  line := 92
  type := errorWarn

def counterWarning : Report where
  error := "Error deletion counter overflowed, resetting to 0".toList
  function := "ext2_make_space".toList
  file := integrityFile
  line := 95
  type := errorWarn

/-- `ext2_add_error` with `ext2_make_space`, which reports through it: the log and the messages
    that have been put into it, newest first. Each level of the recursion takes 128 from the
    count, so that `error_count` levels are enough. -/
def addErrorWith : Nat → Report → Log → Log × List ErrorMessage
  | 0, report, log =>
    if log.errors_inhibited then (log, [])
    else (log.insert (log.entry report), [log.entry report])
  | level + 1, report, log =>
    if log.errors_inhibited then (log, [])
    else if ext2MaxErrors ≤ log.error_count then
      let (warned, first) := addErrorWith level spaceWarning log.dropCycle
      let (made, second) :=
        if (2 ^ 64 - 1) / ext2DeleteCycle ≤ warned.error_deletion_counter then
          let (reset, more) := addErrorWith level counterWarning warned
          ({ reset with error_deletion_counter := 0 }, more ++ first)
        else (warned, first)
      (made.insert (made.entry report), made.entry report :: second)
    else (log.insert (log.entry report), [log.entry report])

def ext2AddError (report : Report) (log : Log) : Log × List ErrorMessage :=
  addErrorWith log.error_count report log

/-- `kfree` panics at the file name of a message that has none. -/
def ext2ClearErrors (log : Log) : Option Log :=
  if log.error_messages.any fun message => message.file.isNone then none
  else some { log with error_messages := [] }

def ext2IntegrityInhibitErrors (t : Bool) (log : Log) : Log := { log with errors_inhibited := t }

inductive LogCall where
  | add (report : Report)
  | clear
  | inhibit (t : Bool)

abbrev Recorded := Log × List ErrorMessage

def LogCall.run : Recorded → LogCall → Option Recorded
  | (log, history), .add report =>
    let (log', added) := ext2AddError report log
    some (log', added ++ history)
  | (log, history), .clear => (ext2ClearErrors log).map fun log' => (log', history)
  | (log, history), .inhibit t => some (ext2IntegrityInhibitErrors t log, history)

def runCalls (calls : List LogCall) (start : Recorded) : Option Recorded :=
  calls.foldlM LogCall.run start

def start (base : Text) : Recorded := (⟨[], 0, 0, 0, false, base⟩, [])

/-- At most 1024 messages are kept, they are the last ones that came in, and their number is
    counted. -/
structure Bounded (state : Recorded) : Prop where
  bounded : state.1.error_messages.length ≤ ext2MaxErrors
  recent : state.1.error_messages <+: state.2
  counted : state.1.error_count = state.1.error_messages.length

def addedSinceClear : List LogCall → Bool → Nat → Nat
  | [], _, n => n
  | .add _ :: rest, inhibited, n => addedSinceClear rest inhibited (if inhibited then n else n + 1)
  | .clear :: rest, inhibited, _ => addedSinceClear rest inhibited 0
  | .inhibit t :: rest, _, n => addedSinceClear rest t n

theorem ext2AddError_zero {log : Log} (zero : log.error_count = 0) (report : Report) :
    ext2AddError report log = if log.errors_inhibited then (log, [])
      else (log.insert (log.entry report), [log.entry report]) := by
  rw [ext2AddError, zero, addErrorWith]

/-- The count stays 0, and every message since the last clear is kept. -/
theorem runCalls_keeps {calls : List LogCall} {log : Log} {history : List ErrorMessage}
    {state : Recorded} (zero : log.error_count = 0)
    (run : runCalls calls (log, history) = some state) :
    state.1.error_count = 0 ∧ state.1.error_messages.length =
      addedSinceClear calls log.errors_inhibited log.error_messages.length := by
  induction calls generalizing log history with
  | nil =>
    cases run
    exact ⟨zero, rfl⟩
  | cons call rest ih =>
    obtain ⟨next, step, run⟩ := Option.bind_eq_some_iff.mp run
    cases call with
    | add report =>
      rw [LogCall.run, ext2AddError_zero zero] at step
      cases off : log.errors_inhibited with
      | true =>
        rw [off, if_pos rfl] at step
        cases step
        simpa [addedSinceClear, off] using ih zero run
      | false =>
        rw [off, if_neg Bool.false_ne_true] at step
        cases step
        have later := ih (by exact zero) run
        simpa [addedSinceClear, off, Log.insert] using later
    | clear =>
      obtain ⟨log', cleared, rfl⟩ := Option.map_eq_some_iff.mp step
      rw [ext2ClearErrors] at cleared
      split at cleared
      · cases cleared
      · cases cleared
        exact ih (by exact zero) run
    | inhibit t =>
      cases step
      exact ih (by exact zero) run

/-- The log is bounded and counted only while it is empty. -/
theorem error_log_bounded_iff (base : Text) (calls : List LogCall) :
    (∀ state, runCalls calls (start base) = some state → Bounded state) ↔
      runCalls calls (start base) = none ∨ addedSinceClear calls false 0 = 0 := by
  cases run : runCalls calls (start base) with
  | none => simp
  | some state =>
    obtain ⟨zero, kept⟩ := runCalls_keeps rfl run
    change _ = addedSinceClear calls false 0 at kept
    rw [← kept]
    constructor
    · intro bounded
      exact Or.inr ((bounded state rfl).counted.symm.trans zero)
    · rintro (panic | empty) _ ⟨⟩
      · cases panic
      · have none := List.length_eq_zero_iff.mp empty
        constructor
        · exact empty.symm ▸ Nat.zero_le _
        · exact none.symm ▸ List.nil_prefix
        · exact zero.trans empty.symm

/-- One message: it is in the list and not in the count. -/
theorem error_log_uncounted : ¬ ∀ (base : Text) (calls : List LogCall) (state : Recorded),
    runCalls calls (start base) = some state → Bounded state := by
  intro all
  exact absurd (all [] [.add spaceWarning] _ rfl).counted (by decide)

end ErrorLog
end OmenExt2
