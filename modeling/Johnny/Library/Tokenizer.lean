import Mathlib.Data.List.Forall2
import Mathlib.Data.List.Induction

namespace Johnny
namespace Library

/-!
# Streaming tokenizers and interrupted input

A tokenizer reads one symbol at a time.  Its control state decides, together
with the symbol, whether the symbol is dropped, kept as the next symbol of a
token, or taken as the end of the token held so far.  The control state never
looks at the held symbols, so it is a function of the input alone.

A reader that works through a buffer may forget the held symbols whenever the
buffer runs out.  `runChunks` is that reader.  Its result is compared with the
reader that never forgets: they agree exactly when every chunk ends while no
symbol is held.
-/

universe u v

/-- What one symbol does to the token being read. -/
inductive Action
  | skip
  | keep
  | emit
  deriving DecidableEq, Repr

/-- A tokenizer over control states `Q` and symbols `A`. -/
structure Tokenizer (Q : Type u) (A : Type v) where
  next : Q -> A -> Q
  action : Q -> A -> Action

/-- The progress of a reader: its control state, the symbols of the token in
progress, and the finished tokens in order. -/
@[ext] structure Scan (Q : Type u) (A : Type v) where
  control : Q
  held : List A
  tokens : List (List A)

namespace Scan

variable {Q : Type u} {A : Type v}

/-- A reader about to start, with nothing held and nothing found. -/
def start (control : Q) : Scan Q A :=
  ⟨control, [], []⟩

/-- Forget the symbols of an unfinished token. -/
def forget (scan : Scan Q A) : Scan Q A :=
  { scan with held := [] }

/-- One reader trails another when both are in the same control state and
every token of the first is what remains of the same token of the second
after its beginning was lost. -/
structure Trails (left right : Scan Q A) : Prop where
  control : left.control = right.control
  held : left.held <:+ right.held
  tokens : List.Forall₂ (fun first second => first <:+ second) left.tokens right.tokens

theorem Trails.refl (scan : Scan Q A) : Trails scan scan :=
  ⟨rfl, List.suffix_refl _, List.forall₂_same.mpr (fun token _ => List.suffix_refl token)⟩

theorem Trails.forget {left right : Scan Q A} (trails : Trails left right) :
    Trails left.forget right :=
  ⟨trails.control, List.nil_suffix, trails.tokens⟩

/-- Forgetting keeps two readers equal exactly when there was nothing to
forget. -/
theorem Trails.forget_eq_iff {left right : Scan Q A} (trails : Trails left right) :
    left.forget = right <-> left = right ∧ right.held = [] := by
  constructor
  · intro equal
    have empty : right.held = [] := by rw [← equal]; rfl
    have leftEmpty : left.held = [] := List.suffix_nil.mp (empty ▸ trails.held)
    refine ⟨?_, empty⟩
    rw [← equal]
    exact Scan.ext rfl leftEmpty rfl
  · rintro ⟨equal, empty⟩
    subst equal
    exact Scan.ext rfl empty.symm rfl

/-- With nothing held on the right, readers that trail one another are equal
as soon as their tokens are. -/
theorem Trails.eq_iff_tokens {left right : Scan Q A} (trails : Trails left right)
    (empty : right.held = []) : left = right <-> left.tokens = right.tokens := by
  constructor
  · intro equal
    rw [equal]
  · intro sameTokens
    have leftEmpty : left.held = [] := List.suffix_nil.mp (empty ▸ trails.held)
    exact Scan.ext trails.control (leftEmpty.trans empty.symm) sameTokens

end Scan

namespace Tokenizer

variable {Q : Type u} {A : Type v} (T : Tokenizer Q A)

/-- Read one symbol. -/
def step (scan : Scan Q A) (symbol : A) : Scan Q A :=
  match T.action scan.control symbol with
  | .skip => { scan with control := T.next scan.control symbol }
  | .keep => { scan with control := T.next scan.control symbol, held := scan.held ++ [symbol] }
  | .emit => ⟨T.next scan.control symbol, [], scan.tokens ++ [scan.held]⟩

/-- Read a whole input without interruption. -/
def run (scan : Scan Q A) (input : List A) : Scan Q A :=
  input.foldl T.step scan

/-- Read the input chunk by chunk, forgetting the held symbols after each
chunk. -/
def runChunks (scan : Scan Q A) (chunks : List (List A)) : Scan Q A :=
  chunks.foldl (fun before chunk => (T.run before chunk).forget) scan

@[simp] theorem run_nil (scan : Scan Q A) : T.run scan [] = scan := rfl

@[simp] theorem run_cons (scan : Scan Q A) (symbol : A) (input : List A) :
    T.run scan (symbol :: input) = T.run (T.step scan symbol) input := rfl

theorem run_append (scan : Scan Q A) (first second : List A) :
    T.run scan (first ++ second) = T.run (T.run scan first) second :=
  List.foldl_append

@[simp] theorem runChunks_nil (scan : Scan Q A) : T.runChunks scan [] = scan := rfl

@[simp] theorem runChunks_cons (scan : Scan Q A) (chunk : List A) (chunks : List (List A)) :
    T.runChunks scan (chunk :: chunks) = T.runChunks (T.run scan chunk).forget chunks := rfl

@[simp] theorem step_control (scan : Scan Q A) (symbol : A) :
    (T.step scan symbol).control = T.next scan.control symbol := by
  unfold step
  cases T.action scan.control symbol <;> rfl

theorem step_of_skip (scan : Scan Q A) (symbol : A)
    (skip : T.action scan.control symbol = .skip) :
    T.step scan symbol = { scan with control := T.next scan.control symbol } := by
  unfold step
  rw [skip]

theorem step_of_keep (scan : Scan Q A) (symbol : A)
    (keep : T.action scan.control symbol = .keep) :
    T.step scan symbol =
      { scan with control := T.next scan.control symbol, held := scan.held ++ [symbol] } := by
  unfold step
  rw [keep]

theorem step_of_emit (scan : Scan Q A) (symbol : A)
    (emit : T.action scan.control symbol = .emit) :
    T.step scan symbol = ⟨T.next scan.control symbol, [], scan.tokens ++ [scan.held]⟩ := by
  unfold step
  rw [emit]

/-- A stretch of symbols kept in one control state is appended to the held
token. -/
theorem run_of_keep (scan : Scan Q A) (input : List A)
    (stays : forall symbol, symbol ∈ input -> T.next scan.control symbol = scan.control)
    (keeps : forall symbol, symbol ∈ input -> T.action scan.control symbol = .keep) :
    T.run scan input = { scan with held := scan.held ++ input } := by
  induction input generalizing scan with
  | nil => simp
  | cons symbol rest ih =>
      rw [run_cons, T.step_of_keep scan symbol (keeps symbol List.mem_cons_self),
        stays symbol List.mem_cons_self]
      rw [ih]
      · simp only [List.append_assoc, List.cons_append, List.nil_append]
      · exact fun later member => stays later (List.mem_cons_of_mem _ member)
      · exact fun later member => keeps later (List.mem_cons_of_mem _ member)

/-- Tokens found earlier do not matter for the rest of the input. -/
theorem step_prepend (control : Q) (held : List A) (tokens : List (List A)) (symbol : A) :
    T.step ⟨control, held, tokens⟩ symbol =
      { T.step ⟨control, held, []⟩ symbol with
        tokens := tokens ++ (T.step ⟨control, held, []⟩ symbol).tokens } := by
  cases chosen : T.action control symbol with
  | skip =>
      rw [T.step_of_skip ⟨control, held, tokens⟩ symbol chosen,
        T.step_of_skip ⟨control, held, []⟩ symbol chosen]
      simp
  | keep =>
      rw [T.step_of_keep ⟨control, held, tokens⟩ symbol chosen,
        T.step_of_keep ⟨control, held, []⟩ symbol chosen]
      simp
  | emit =>
      rw [T.step_of_emit ⟨control, held, tokens⟩ symbol chosen,
        T.step_of_emit ⟨control, held, []⟩ symbol chosen]
      simp

theorem run_prepend (control : Q) (held : List A) (tokens : List (List A)) (input : List A) :
    T.run ⟨control, held, tokens⟩ input =
      { T.run ⟨control, held, []⟩ input with
        tokens := tokens ++ (T.run ⟨control, held, []⟩ input).tokens } := by
  induction input generalizing control held tokens with
  | nil => simp
  | cons symbol rest ih =>
      rw [run_cons, run_cons, T.step_prepend control held tokens symbol]
      have late := ih (T.step ⟨control, held, []⟩ symbol).control
        (T.step ⟨control, held, []⟩ symbol).held
      rw [late (tokens ++ _), late (T.step ⟨control, held, []⟩ symbol).tokens]
      simp only [List.append_assoc]

theorem runChunks_prepend (control : Q) (tokens : List (List A)) (chunks : List (List A)) :
    T.runChunks ⟨control, [], tokens⟩ chunks =
      { T.runChunks ⟨control, [], []⟩ chunks with
        tokens := tokens ++ (T.runChunks ⟨control, [], []⟩ chunks).tokens } := by
  induction chunks generalizing control tokens with
  | nil => simp
  | cons chunk rest ih =>
      rw [runChunks_cons, runChunks_cons, T.run_prepend control [] tokens chunk]
      unfold Scan.forget
      rw [ih _ (tokens ++ _), ih _ (T.run ⟨control, [], []⟩ chunk).tokens]
      simp only [List.append_assoc]

/-- One more chunk, for a reader that has forgotten what it held. -/
theorem runChunks_concat (control : Q) (chunks : List (List A)) (chunk : List A) :
    T.runChunks (Scan.start control) (chunks ++ [chunk]) =
      { (T.run (Scan.start (T.runChunks (Scan.start control) chunks).control) chunk).forget with
        tokens := (T.runChunks (Scan.start control) chunks).tokens ++
          (T.run (Scan.start (T.runChunks (Scan.start control) chunks).control)
            chunk).tokens } := by
  have empty : (T.runChunks (Scan.start control) chunks).held = [] := by
    induction chunks using List.reverseRecOn with
    | nil => rfl
    | append_singleton before last _ =>
        unfold runChunks
        rw [List.foldl_append]
        rfl
  have split : T.runChunks (Scan.start control) (chunks ++ [chunk]) =
      (T.run (T.runChunks (Scan.start control) chunks) chunk).forget :=
    List.foldl_append
  generalize T.runChunks (Scan.start control) chunks = before at empty split ⊢
  rcases before with ⟨state, held, tokens⟩
  subst empty
  rw [split, T.run_prepend state [] tokens chunk]
  rfl

theorem step_trails {left right : Scan Q A} (trails : left.Trails right) (symbol : A) :
    (T.step left symbol).Trails (T.step right symbol) := by
  unfold step
  rw [trails.control]
  cases T.action right.control symbol with
  | skip => exact ⟨rfl, trails.held, trails.tokens⟩
  | keep =>
      refine ⟨rfl, ?_, trails.tokens⟩
      rcases trails.held with ⟨lost, equal⟩
      exact ⟨lost, by rw [← List.append_assoc, equal]⟩
  | emit =>
      refine ⟨rfl, List.suffix_refl _, ?_⟩
      exact List.rel_append trails.tokens (List.Forall₂.cons trails.held List.Forall₂.nil)

/-- A symbol never makes different readers equal again: what was lost stays
lost. -/
theorem step_eq_iff {left right : Scan Q A} (trails : left.Trails right) (symbol : A) :
    T.step left symbol = T.step right symbol <-> left = right := by
  refine ⟨?_, fun equal => by rw [equal]⟩
  have sameLength := trails.tokens.length_eq
  intro equal
  cases chosen : T.action right.control symbol with
  | skip =>
      rw [T.step_of_skip left symbol (trails.control ▸ chosen),
        T.step_of_skip right symbol chosen] at equal
      rcases Scan.mk.inj equal with ⟨-, sameHeld, sameTokens⟩
      exact Scan.ext trails.control sameHeld sameTokens
  | keep =>
      rw [T.step_of_keep left symbol (trails.control ▸ chosen),
        T.step_of_keep right symbol chosen] at equal
      rcases Scan.mk.inj equal with ⟨-, sameHeld, sameTokens⟩
      exact Scan.ext trails.control (List.append_cancel_right sameHeld) sameTokens
  | emit =>
      rw [T.step_of_emit left symbol (trails.control ▸ chosen),
        T.step_of_emit right symbol chosen] at equal
      rcases Scan.mk.inj equal with ⟨-, -, sameTokens⟩
      have parts := List.append_inj sameTokens sameLength
      exact Scan.ext trails.control (List.singleton_inj.mp parts.2) parts.1

theorem run_trails {left right : Scan Q A} (trails : left.Trails right) (input : List A) :
    (T.run left input).Trails (T.run right input) := by
  induction input generalizing left right with
  | nil => exact trails
  | cons symbol rest ih => exact ih (T.step_trails trails symbol)

theorem run_eq_iff {left right : Scan Q A} (trails : left.Trails right) (input : List A) :
    T.run left input = T.run right input <-> left = right := by
  induction input generalizing left right with
  | nil => rfl
  | cons symbol rest ih =>
      rw [run_cons, run_cons, ih (T.step_trails trails symbol), T.step_eq_iff trails symbol]

theorem runChunks_trails {left right : Scan Q A} (trails : left.Trails right)
    (chunks : List (List A)) :
    (T.runChunks left chunks).Trails (T.run right chunks.flatten) := by
  induction chunks generalizing left right with
  | nil => exact trails
  | cons chunk rest ih =>
      rw [runChunks_cons, List.flatten_cons, run_append]
      exact ih (T.run_trails trails chunk).forget

/-- The interrupted reader keeps up exactly when it started level and every
chunk ends with nothing held. -/
theorem runChunks_eq_run_iff {left right : Scan Q A} (trails : left.Trails right)
    (chunks : List (List A)) :
    T.runChunks left chunks = T.run right chunks.flatten <->
      left = right ∧ forall first rest, chunks = first ++ rest -> first ≠ [] ->
        (T.run right first.flatten).held = [] := by
  induction chunks generalizing left right with
  | nil =>
      constructor
      · intro equal
        refine ⟨equal, ?_⟩
        intro first rest split nonempty
        exact False.elim (nonempty (List.append_eq_nil_iff.mp split.symm).1)
      · exact fun both => both.1
  | cons chunk later ih =>
      have afterChunk := T.run_trails trails chunk
      rw [runChunks_cons, List.flatten_cons, run_append, ih afterChunk.forget,
        afterChunk.forget_eq_iff, T.run_eq_iff trails chunk, and_assoc]
      refine and_congr_right (fun _ => ?_)
      constructor
      · rintro ⟨atChunk, atLater⟩ first rest split nonempty
        cases first with
        | nil => exact False.elim (nonempty rfl)
        | cons head tail =>
            rcases List.cons.inj split with ⟨rfl, tailSplit⟩
            rw [List.flatten_cons, run_append]
            by_cases only : tail = []
            · subst only
              exact atChunk
            · exact atLater tail rest tailSplit only
      · intro atEvery
        constructor
        · simpa using atEvery [chunk] later rfl (by simp)
        · intro first rest split nonempty
          have atNext := atEvery (chunk :: first) rest (by rw [split]; rfl) (by simp)
          rwa [List.flatten_cons, run_append] at atNext

/-- The control state does not notice interruptions. -/
theorem runChunks_control (scan : Scan Q A) (chunks : List (List A)) :
    (T.runChunks scan chunks).control = (T.run scan chunks.flatten).control :=
  (T.runChunks_trails (Scan.Trails.refl scan) chunks).control

/-- When the whole input ends with nothing held, the interrupted reader finds
the same tokens exactly when no chunk ends inside a token. -/
theorem runChunks_tokens_eq_iff (scan : Scan Q A) (chunks : List (List A))
    (empty : (T.run scan chunks.flatten).held = []) :
    (T.runChunks scan chunks).tokens = (T.run scan chunks.flatten).tokens <->
      forall first rest, chunks = first ++ rest -> first ≠ [] ->
        (T.run scan first.flatten).held = [] := by
  have trails := Scan.Trails.refl scan
  rw [← (T.runChunks_trails trails chunks).eq_iff_tokens empty, T.runChunks_eq_run_iff trails]
  exact and_iff_right rfl

/-! ## Stopping and resuming -/

/-- The chunks of an input that stops after a number of symbols. -/
def takeSymbols : Nat -> List (List A) -> List (List A)
  | _, [] => []
  | count, chunk :: rest =>
      if count = 0 then [] else chunk.take count :: takeSymbols (count - chunk.length) rest

/-- The chunks behind a number of symbols. -/
def dropSymbols : Nat -> List (List A) -> List (List A)
  | _, [] => []
  | count, chunk :: rest =>
      if count < chunk.length then chunk.drop count :: rest
      else dropSymbols (count - chunk.length) rest

theorem flatten_takeSymbols (count : Nat) (chunks : List (List A)) :
    (takeSymbols count chunks).flatten = chunks.flatten.take count := by
  induction chunks generalizing count with
  | nil => simp [takeSymbols]
  | cons chunk rest ih =>
      rw [takeSymbols]
      by_cases stop : count = 0
      · rw [if_pos stop, stop, List.take_zero]
        rfl
      · rw [if_neg stop, List.flatten_cons, List.flatten_cons, List.take_append, ih]

/-- Stopping cuts the last chunk short, and leaves none empty. -/
theorem mem_takeSymbols {count : Nat} {chunks : List (List A)} {piece : List A}
    (member : piece ∈ takeSymbols count chunks) :
    Exists fun chunk => chunk ∈ chunks ∧ piece.length ≤ chunk.length ∧
      (1 ≤ chunk.length -> 1 ≤ piece.length) := by
  induction chunks generalizing count with
  | nil => cases member
  | cons chunk rest ih =>
      rw [takeSymbols] at member
      by_cases stop : count = 0
      · rw [if_pos stop] at member
        cases member
      · rw [if_neg stop] at member
        rcases List.mem_cons.mp member with rfl | later
        · refine ⟨chunk, List.mem_cons_self, List.length_take_le' _ _, ?_⟩
          intro nonempty
          rw [List.length_take]
          omega
        · rcases ih later with ⟨other, inside, bounds⟩
          exact ⟨other, List.mem_cons_of_mem _ inside, bounds⟩

theorem mem_dropSymbols {count : Nat} {chunks : List (List A)} {piece : List A}
    (member : piece ∈ dropSymbols count chunks) :
    Exists fun chunk => chunk ∈ chunks ∧ piece.length ≤ chunk.length := by
  induction chunks generalizing count with
  | nil => cases member
  | cons chunk rest ih =>
      rw [dropSymbols] at member
      by_cases inside : count < chunk.length
      · rw [if_pos inside] at member
        rcases List.mem_cons.mp member with rfl | later
        · exact ⟨chunk, List.mem_cons_self, (List.drop_sublist _ _).length_le⟩
        · exact ⟨piece, List.mem_cons_of_mem _ later, Nat.le_refl _⟩
      · rw [if_neg inside] at member
        rcases ih member with ⟨other, later, shorter⟩
        exact ⟨other, List.mem_cons_of_mem _ later, shorter⟩

/-- A reader that holds nothing up to some point may be stopped there and
resumed with what is left of the chunks. -/
theorem runChunks_dropSymbols (scan : Scan Q A) (chunks : List (List A)) (count : Nat)
    (bound : count ≤ chunks.flatten.length)
    (empty : forall i, i ≤ count -> (T.run scan (chunks.flatten.take i)).held = []) :
    T.runChunks scan chunks =
      T.runChunks (T.run scan (chunks.flatten.take count)) (dropSymbols count chunks) := by
  induction chunks generalizing scan count with
  | nil =>
      rw [List.flatten_nil, List.take_nil, dropSymbols]
      rfl
  | cons chunk rest ih =>
      rw [List.flatten_cons] at bound empty ⊢
      rw [List.length_append] at bound
      rw [dropSymbols]
      by_cases inside : count < chunk.length
      · rw [if_pos inside, List.take_append_of_le_length (Nat.le_of_lt inside), runChunks_cons,
          runChunks_cons, ← run_append, List.take_append_drop]
      · have whole : chunk.length ≤ count := Nat.le_of_not_lt inside
        have kept : (T.run scan chunk).forget = T.run scan chunk := by
          have nothing := empty chunk.length whole
          rw [List.take_left' rfl] at nothing
          exact Scan.ext rfl nothing.symm rfl
        have through : forall i, chunk.length ≤ i ->
            T.run scan ((chunk ++ rest.flatten).take i) =
              T.run (T.run scan chunk) (rest.flatten.take (i - chunk.length)) := by
          intro i long
          rw [List.take_append, List.take_of_length_le long, run_append]
        rw [if_neg inside, runChunks_cons, kept, through count whole]
        apply ih _ _ (by omega)
        intro i before
        have nothing := empty (chunk.length + i) (by omega)
        rw [through _ (Nat.le_add_right _ _), Nat.add_sub_cancel_left] at nothing
        exact nothing

end Tokenizer

end Library
end Johnny
