/-
A session and its log. The log of a run has an entry for each operation: the operation, the session it
was asked of, its reply, and the session after it. What a session remembers is what its log says
(`run_fresh`): the last answer and the mode are the latest that the log has, the history is the latest
results since it was cleared, newest first and as many as the limit allows, and the memory is the sum of
what was added and subtracted since it was cleared, from the left. What failed has changed nothing.

The log grows at its end, and so each of these is an induction from the end, with a lemma on one
operation as its step.
-/
import Mathlib.Data.List.DropRight
import SciCalc.Session

namespace SciCalc

inductive Operation where
  | evaluate (text : String)
  | memoryAdd (text : String)
  | memorySubtract (text : String)
  | memoryClear
  | clearHistory
  | setMode (mode : AngleMode)
  | toggleMode
deriving DecidableEq, Repr

inductive Reply where
  | report (r : Report)
  /-- The memory after it is added to or subtracted from. -/
  | memory (outcome : Except EvalError Float)
  | mode (mode : AngleMode)
  | done

structure LogEntry where
  operation : Operation
  before : Session
  reply : Reply
  after : Session

namespace Session

def fresh (mode : AngleMode) (limit : Nat) : Session := { mode := mode, historyLimit := limit }

theorem fresh_memory (mode : AngleMode) (limit : Nat) : (fresh mode limit).memory = Double.ofNat 0 := by
  simp only [fresh]

/-- A session after its memory was added to or subtracted from. A failure leaves it as it is. -/
def replyMemory (s : Session) : Except EvalError Session → Reply × Session
  | .ok changed => (.memory (.ok changed.memory), changed)
  | .error e => (.memory (.error e), s)

def perform (s : Session) : Operation → Reply × Session
  | .evaluate text =>
    let (report, s) := s.evaluate text
    (.report report, s)
  | .memoryAdd text => s.replyMemory (s.memoryAdd text)
  | .memorySubtract text => s.replyMemory (s.memorySubtract text)
  | .memoryClear => (.done, s.memoryClear)
  | .clearHistory => (.done, s.clearHistory)
  | .setMode mode => (.done, s.setMode mode)
  | .toggleMode => (.mode s.toggleMode.mode, s.toggleMode)

def entry (s : Session) (op : Operation) : LogEntry := ⟨op, s, (s.perform op).1, (s.perform op).2⟩

def run (s : Session) (ops : List Operation) : Session := ops.foldl (fun s op => (s.perform op).2) s

/-- The log of some operations, from the first to the last. -/
def log (s : Session) : List Operation → List LogEntry
  | [] => []
  | op :: ops => s.entry op :: log (s.perform op).2 ops

end Session

namespace LogEntry

def answer? (e : LogEntry) : Option Float :=
  match e.operation, e.reply with
  | .evaluate _, .report r => r.value?
  | _, _ => none

/-- An expression that has a value, as it was typed, with its value and with what was displayed. -/
def result? (e : LogEntry) : Option (String × Float × String) :=
  match e.operation, e.reply with
  | .evaluate text, .report r => r.value?.map fun x => (text, x, r.display)
  | _, _ => none

/-- What a text stands for in a memory command: the last answer if it is blank, and else its value, both
as they were when the command was given. -/
def operand (e : LogEntry) (text : String) : Except EvalError Float :=
  if text.toList.all Text.isBlank then .ok e.before.answer
  else SciCalc.evaluate e.before.mode (Answer.expand e.before.answer text)

/-- What a memory command that succeeds does to the memory. -/
def change? (e : LogEntry) : Option (Float → Float) :=
  match e.operation, e.reply with
  | .memoryAdd text, .memory (.ok _) => (e.operand text).toOption.map fun x memory => memory + x
  | .memorySubtract text, .memory (.ok _) => (e.operand text).toOption.map fun x memory => memory - x
  | _, _ => none

/-- The mode that an operation changes to; a toggle, to the one that is not set. -/
def mode? (e : LogEntry) : Option AngleMode :=
  match e.operation, e.before.mode with
  | .setMode mode, _ => some mode
  | .toggleMode, .degrees => some .radians
  | .toggleMode, .radians => some .degrees
  | _, _ => none

def failed (e : LogEntry) : Bool :=
  match e.reply with
  | .report r => !r.isSuccess
  | .memory outcome => !outcome.isOk
  | _ => false

end LogEntry

/-- The entries after the last one with a certain operation. -/
def LogEntry.since (op : Operation) (log : List LogEntry) : List LogEntry :=
  log.rtakeWhile fun e => e.operation ≠ op

namespace Session

variable {s : Session} {op : Operation} {ops : List Operation}

def shown (entry : HistoryEntry) : String × Float × String :=
  (entry.expression, entry.value, entry.display)

/-! ## The end of a run -/

theorem run_concat (s : Session) (ops : List Operation) (op : Operation) :
    s.run (ops ++ [op]) = ((s.run ops).perform op).2 := by
  simp [run]

theorem log_concat (s : Session) (ops : List Operation) (op : Operation) :
    s.log (ops ++ [op]) = s.log ops ++ [(s.run ops).entry op] := by
  induction ops generalizing s with
  | nil => rfl
  | cons first ops ih =>
    have hrun : s.run (first :: ops) = (s.perform first).2.run ops := rfl
    simp only [List.cons_append, log, ih, hrun]

/-! ## One operation -/

theorem trim_eq_nil_iff {cs : List Char} : Text.trim cs = [] ↔ cs.all Text.isBlank = true := by
  simp only [Text.trim, Text.trimStart, List.reverse_eq_nil_iff, List.dropWhile_eq_nil_iff,
    List.all_eq_true, List.mem_reverse]
  constructor
  · intro h c hc
    rw [← List.takeWhile_append_dropWhile (p := Text.isBlank) (l := cs), List.mem_append] at hc
    rcases hc with hc | hc
    · exact List.mem_takeWhile_imp hc
    · exact h c hc
  · exact fun h c hc => h c ((List.dropWhile_sublist _).subset hc)

theorem operand_eq (e : LogEntry) (text : String) : e.operand text = e.before.operand text := by
  simp only [LogEntry.operand, operand, trim_eq_nil_iff]
  rfl

/-- What an operation can do: all its outcomes, with the reply and the session after each. -/
inductive Performs (s : Session) : Operation → Reply → Session → Prop
  | evaluated {text : String} {x : Float} (h : s.outcome text = .ok x) :
      Performs s (.evaluate text) (.report ⟨text, .ok x⟩) (s.record text x)
  | notEvaluated {text : String} {e : EvalError} (h : s.outcome text = .error e) :
      Performs s (.evaluate text) (.report ⟨text, .error e⟩) s
  | added {text : String} {x : Float} (h : s.operand text = .ok x) :
      Performs s (.memoryAdd text) (.memory (.ok (s.memory + x))) { s with memory := s.memory + x }
  | notAdded {text : String} {e : EvalError} (h : s.operand text = .error e) :
      Performs s (.memoryAdd text) (.memory (.error e)) s
  | subtracted {text : String} {x : Float} (h : s.operand text = .ok x) :
      Performs s (.memorySubtract text) (.memory (.ok (s.memory - x))) { s with memory := s.memory - x }
  | notSubtracted {text : String} {e : EvalError} (h : s.operand text = .error e) :
      Performs s (.memorySubtract text) (.memory (.error e)) s
  | memoryCleared : Performs s .memoryClear .done s.memoryClear
  | historyCleared : Performs s .clearHistory .done s.clearHistory
  | modeSet {mode : AngleMode} : Performs s (.setMode mode) .done (s.setMode mode)
  | modeToggled : Performs s .toggleMode (.mode s.toggleMode.mode) s.toggleMode

theorem performs (s : Session) (op : Operation) :
    Performs s op (s.entry op).reply (s.entry op).after := by
  cases op with
  | evaluate text =>
    simp only [entry, perform, evaluate]
    cases h : s.outcome text with
    | ok x => exact .evaluated h
    | error e => exact .notEvaluated h
  | memoryAdd text =>
    simp only [entry, perform, memoryAdd]
    cases h : s.operand text with
    | ok x => exact .added h
    | error e => exact .notAdded h
  | memorySubtract text =>
    simp only [entry, perform, memorySubtract]
    cases h : s.operand text with
    | ok x => exact .subtracted h
    | error e => exact .notSubtracted h
  | memoryClear => exact .memoryCleared
  | clearHistory => exact .historyCleared
  | setMode mode => exact .modeSet
  | toggleMode => exact .modeToggled

variable {reply : Reply} {s' : Session}

theorem Performs.answer (h : Performs s op reply s') :
    s'.answer = (LogEntry.mk op s reply s').answer?.getD s.answer := by
  cases h with
  | memoryCleared => simp only [memoryClear, LogEntry.answer?, Option.getD_none]
  | _ => rfl

theorem Performs.mode (h : Performs s op reply s') :
    s'.mode = (LogEntry.mk op s reply s').mode?.getD s.mode := by
  cases h with
  | memoryCleared => simp only [memoryClear, LogEntry.mode?, Option.getD_none]
  | modeToggled =>
    simp only [toggleMode, setMode, LogEntry.mode?]
    cases s.mode with
    | degrees => rfl
    | radians => rfl
  | _ => rfl

theorem Performs.historyLimit (h : Performs s op reply s') : s'.historyLimit = s.historyLimit := by
  cases h with
  | memoryCleared => simp only [memoryClear]
  | _ => rfl

theorem Performs.memory (h : Performs s op reply s') (hop : op ≠ .memoryClear) :
    s'.memory = (LogEntry.mk op s reply s').change?.elim s.memory (· s.memory) := by
  cases h with
  | memoryCleared => exact absurd rfl hop
  | added hx | subtracted hx => simp [LogEntry.change?, operand_eq, hx, Except.toOption]
  | _ => rfl

theorem Performs.history (h : Performs s op reply s') (hop : op ≠ .clearHistory) :
    s'.history.map shown = (LogEntry.mk op s reply s').result?.elim (s.history.map shown)
      fun r => (r :: s.history.map shown).take s.historyLimit := by
  cases h with
  | historyCleared => exact absurd rfl hop
  | evaluated => exact List.map_take
  | memoryCleared => simp only [memoryClear, LogEntry.result?, Option.elim_none]
  | _ => rfl

theorem Performs.eq_of_failed (h : Performs s op reply s')
    (hf : (LogEntry.mk op s reply s').failed = true) : s' = s := by
  cases h with
  | notEvaluated | notAdded | notSubtracted => rfl
  | _ => cases hf

/-! ## A whole run -/

theorem run_historyLimit (s : Session) (ops : List Operation) :
    (s.run ops).historyLimit = s.historyLimit := by
  induction ops using List.reverseRecOn with
  | nil => rfl
  | append_singleton ops op ih => rw [run_concat, ← ih]; exact (performs _ op).historyLimit

/-- What an operation either replaces or leaves is what replaced it last. -/
theorem run_latest {α : Type} (field : Session → α) (latest? : LogEntry → Option α)
    (hstep : ∀ s op, field (s.perform op).2 = (latest? (entry s op)).getD (field s)) (s : Session)
    (ops : List Operation) :
    field (s.run ops) = ((s.log ops).filterMap latest?).getLast?.getD (field s) := by
  induction ops using List.reverseRecOn with
  | nil => rfl
  | append_singleton ops op ih =>
    rw [run_concat, hstep, ih, log_concat, List.filterMap_append]
    cases h : latest? ((s.run ops).entry op) with
    | none => simp [h]
    | some x => simp [h]

theorem run_answer (s : Session) (ops : List Operation) :
    (s.run ops).answer = ((s.log ops).filterMap LogEntry.answer?).getLast?.getD s.answer :=
  run_latest Session.answer LogEntry.answer? (fun s op => (performs s op).answer) s ops

theorem run_mode (s : Session) (ops : List Operation) :
    (s.run ops).mode = ((s.log ops).filterMap LogEntry.mode?).getLast?.getD s.mode :=
  run_latest Session.mode LogEntry.mode? (fun s op => (performs s op).mode) s ops

theorem since_concat {e : LogEntry} (log : List LogEntry) (h : e.operation ≠ op) :
    LogEntry.since op (log ++ [e]) = LogEntry.since op log ++ [e] :=
  List.rtakeWhile_concat_pos _ _ e (by simpa using h)

theorem since_concat_self {e : LogEntry} (log : List LogEntry) (h : e.operation = op) :
    LogEntry.since op (log ++ [e]) = [] :=
  List.rtakeWhile_concat_neg _ _ e (by simpa using h)

/-- What one operation resets and others add to is what was added since the last reset, from the left. -/
theorem run_since {α β : Type} (field : Session → α) (part? : LogEntry → Option β) (add : α → β → α)
    {reset : Operation} {start : α} (hs : field s = start)
    (hreset : ∀ ops, field ((s.run ops).perform reset).2 = start)
    (hstep : ∀ ops op, op ≠ reset → field ((s.run ops).perform op).2 =
      (part? ((s.run ops).entry op)).elim (field (s.run ops)) (add (field (s.run ops))))
    (ops : List Operation) :
    field (s.run ops) = ((LogEntry.since reset (s.log ops)).filterMap part?).foldl add start := by
  induction ops using List.reverseRecOn with
  | nil => exact hs
  | append_singleton ops op ih =>
    rw [run_concat, log_concat]
    by_cases hop : op = reset
    · rw [since_concat_self _ hop, hop, hreset]
      rfl
    · rw [hstep ops op hop, since_concat _ hop, List.filterMap_append, List.foldl_append, ← ih]
      cases h : part? ((s.run ops).entry op) with
      | none => simp [h]
      | some x => simp [h]

theorem run_memory (hs : s.memory = Double.ofNat 0) (ops : List Operation) :
    (s.run ops).memory = ((LogEntry.since .memoryClear (s.log ops)).filterMap LogEntry.change?).foldl
      (fun memory change => change memory) (Double.ofNat 0) := by
  refine run_since Session.memory LogEntry.change? _ hs (fun _ => ?_) (fun ops op hop => ?_) ops
  · simp only [perform, memoryClear]
  · exact (performs (s.run ops) op).memory hop

theorem take_cons_take {α : Type} (x : α) (l : List α) (n : Nat) :
    (x :: l.take n).take n = (x :: l).take n := by
  cases n with
  | zero => rfl
  | succ n => simp [List.take_take]

theorem foldl_take_cons {α : Type} (n : Nat) (l : List α) :
    l.foldl (fun kept x => (x :: kept).take n) [] = l.reverse.take n := by
  induction l using List.reverseRecOn with
  | nil => simp
  | append_singleton l x ih =>
    rw [List.foldl_append, ih, List.reverse_append]
    exact take_cons_take x l.reverse n

theorem run_history (hs : s.history = []) (ops : List Operation) :
    (s.run ops).history.map shown =
      ((LogEntry.since .clearHistory (s.log ops)).filterMap LogEntry.result?).reverse.take
        s.historyLimit := by
  rw [← foldl_take_cons]
  have hnil : s.history.map shown = [] := by rw [hs]; rfl
  refine run_since (fun s => s.history.map shown) LogEntry.result? _ hnil (fun _ => rfl)
    (fun ops op hop => ?_) ops
  rw [← run_historyLimit s ops]
  exact (performs (s.run ops) op).history hop

theorem eq_before_of_failed (s : Session) (ops : List Operation) :
    ∀ e ∈ s.log ops, e.failed = true → e.after = e.before := by
  induction ops generalizing s with
  | nil =>
    intro e he
    cases he
  | cons op ops ih =>
    intro e he hf
    rcases List.mem_cons.mp he with rfl | he
    · exact (performs s op).eq_of_failed hf
    · exact ih _ e he hf

/-- **A session is what its log says.** After any operations on a new session: the last answer is the
value of the latest expression that has one, or zero; the history is the first so many of the results
since it was cleared, newest first, each as it was typed and displayed; the memory is zero with all that
was added and subtracted since it was cleared, from the left; the mode is the latest that was set or
changed to; and what failed has changed nothing. -/
theorem run_fresh (mode : AngleMode) (limit : Nat) (ops : List Operation) :
    let log := (fresh mode limit).log ops
    let s := (fresh mode limit).run ops
    s.answer = (log.filterMap LogEntry.answer?).getLast?.getD (Double.ofNat 0) ∧
    s.history.map shown =
      ((LogEntry.since .clearHistory log).filterMap LogEntry.result?).reverse.take limit ∧
    s.memory = ((LogEntry.since .memoryClear log).filterMap LogEntry.change?).foldl
      (fun memory change => change memory) (Double.ofNat 0) ∧
    s.mode = (log.filterMap LogEntry.mode?).getLast?.getD mode ∧
    ∀ e ∈ log, e.failed = true → e.after = e.before :=
  ⟨run_answer _ ops, run_history rfl ops, run_memory (fresh_memory mode limit) ops, run_mode _ ops,
    eq_before_of_failed _ ops⟩

end Session
end SciCalc
