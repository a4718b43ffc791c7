import Kennel.Compile
import Kennel.Proofs.Renaming.Eval
import Kennel.Proofs.Renaming.Lower
import Kennel.Proofs.Renaming.Reading
import Mathlib.Logic.Equiv.Basic

/-!
# Names do not matter

Words renamed injectively compile to the same listing and run to the same result, and so do
programs whose names are renamed injectively; a fault differs in the name it quotes, and in nothing
else (`names_irrelevant`).
-/

namespace Kennel

open Asm Reading

/-! ## Programs -/

namespace Lower

/-- A fault that two maps rename alike quotes a name on which they agree. -/
theorem Fault.rename_eq {f g r : String → String} (h : ∀ x, f x = g x → f x = r x)
    {e : Fault} (he : e.rename f = e.rename g) : e.rename f = e.rename r := by
  obtain ⟨cause, contexts⟩ := e
  cases cause with
  | unassigned x =>
    have hx : f x = g x := Cause.unassigned.inj (congrArg Fault.cause he)
    exact congrArg (fun y => (⟨.unassigned y, contexts⟩ : Fault)) (h x hx)
  | outOfRegisters n => rfl
  | strayRelease q => rfl

end Lower

namespace Eval

theorem Cause.rename_eq {f g r : String → String} (h : ∀ x, f x = g x → f x = r x)
    {c : Cause} (hc : c.rename f = c.rename g) : c.rename f = c.rename r := by
  cases c with
  | unassigned x => exact congrArg Cause.unassigned (h x (Cause.unassigned.inj hc))
  | stepLimit n => rfl

/-- The result of a program under a limit on the steps, if there is one. -/
def result (limit : Option Nat) (fuel : Nat) (p : Program) :
    Option (Except Cause (Option Int64)) :=
  (run limit fuel p .initial).map (·.1)

theorem evaluate_eq_result (fuel : Nat) (p : Program) : evaluate fuel p = result none fuel p := rfl

theorem result_rename {r : String → String} (hr : Function.Injective r) (limit : Option Nat)
    (fuel : Nat) (p : Program) :
    result limit fuel (Stmt.renameAll r p) =
      (result limit fuel p).map (Except.mapError (Cause.rename r)) := by
  have hrun := run_rename hr limit fuel p .initial
  have hinit : State.initial.rename r = .initial := rfl
  rw [hinit] at hrun
  rw [result, result, hrun]
  match run limit fuel p .initial with
  | none => rfl
  | some (.ok v, st) => rfl
  | some (.error c, st) => rfl

end Eval

section

variable {p : Program} {r : String → String}
  (hr : ∀ x ∈ p.names, ∀ y ∈ p.names, r x = r y → x = y)

include hr

theorem generate_rename_names (limit : Nat) :
    Lower.generate limit (Stmt.renameAll r p) =
      (Lower.generate limit p).mapError (Lower.Fault.rename r) := by
  refine Program.rename_of_injective (Lower.generate limit)
    (fun f => Except.mapError (Lower.Fault.rename f))
    (fun f hf => Lower.generate_rename hf limit) (fun f g r h b hb => ?_) hr
  cases b with
  | ok code => rfl
  | error e => exact congrArg Except.error (Lower.Fault.rename_eq h (Except.error.inj hb))

theorem result_rename_names (limit : Option Nat) (fuel : Nat) :
    Eval.result limit fuel (Stmt.renameAll r p) =
      (Eval.result limit fuel p).map (Except.mapError (Eval.Cause.rename r)) := by
  refine Program.rename_of_injective (Eval.result limit fuel)
    (fun f => Option.map (Except.mapError (Eval.Cause.rename f)))
    (fun f hf => Eval.result_rename hf limit fuel) (fun f g r h b hb => ?_) hr
  match b with
  | none => rfl
  | some (.ok v) => rfl
  | some (.error c) =>
    have hc := Except.error.inj (Option.some.inj hb)
    exact congrArg (some ∘ Except.error) (Eval.Cause.rename_eq h hc)

end

/-! ## Words -/

def CompileFault.rename (r : String → String) : CompileFault → CompileFault
  | .reading f => .reading f
  | .lowering f => .lowering (f.rename r)

/-- Compile a list of words with the first `limit` scratch registers. -/
def compileWords (limit : Nat) (ws : List String) : Except CompileFault Listing :=
  match (Reader.ofWords ws).program.1 with
  | .error f => .error (.reading f)
  | .ok p => (Lower.generate limit p).mapError .lowering

theorem compileWith_eq_compileWords (limit : Nat) (source : String) :
    compileWith limit source = compileWords limit (Text.words source) := by
  rw [compileWith, compileWords, parse, Reader.ofSource]
  cases (Reader.ofWords (Text.words source)).program.1 with
  | error f => rfl
  | ok p =>
    dsimp only
    cases Lower.generate limit p <;> rfl

theorem compileWords_rename {r : PlainWord → PlainWord} (hr : Function.Injective r)
    (limit : Nat) (ws : List String) :
    compileWords limit (ws.map (renameWord r)) =
      (compileWords limit ws).mapError (CompileFault.rename (renameWord r)) := by
  rw [compileWords, compileWords, program_renameWord]
  match (Reader.ofWords ws).program.1 with
  | .error f => rfl
  | .ok p =>
    simp only [Except.map, Lower.generate_rename (renameWord_injective hr)]
    cases Lower.generate limit p <;> rfl

/-- Renaming changes no listing, no value and no point where a run ends: not for words whose plain
words are renamed injectively, and not for programs in which the names that occur are. -/
theorem names_irrelevant :
    (∀ r : PlainWord → PlainWord, Function.Injective r → ∀ ws : List String,
      (∀ limit, compileWords limit (ws.map (renameWord r)) =
        (compileWords limit ws).mapError (CompileFault.rename (renameWord r))) ∧
      (∀ limit source source', Text.words source = ws →
        Text.words source' = ws.map (renameWord r) →
        compileWith limit source' =
          (compileWith limit source).mapError (CompileFault.rename (renameWord r))) ∧
      (∀ p, (Reader.ofWords ws).program.1 = .ok p →
        ∃ q, (Reader.ofWords (ws.map (renameWord r))).program.1 = .ok q ∧
          ∀ limit fuel, Eval.result limit fuel q =
            (Eval.result limit fuel p).map (Except.mapError (Eval.Cause.rename (renameWord r))))) ∧
    (∀ (r : String → String) (p : Program),
      (∀ x ∈ p.names, ∀ y ∈ p.names, r x = r y → x = y) →
      (∀ limit, Lower.generate limit (Stmt.renameAll r p) =
        (Lower.generate limit p).mapError (Lower.Fault.rename r)) ∧
      (∀ limit fuel, Eval.result limit fuel (Stmt.renameAll r p) =
        (Eval.result limit fuel p).map (Except.mapError (Eval.Cause.rename r)))) := by
  refine ⟨fun r hr ws => ⟨fun limit => compileWords_rename hr limit ws, ?_, ?_⟩,
    fun r p hr => ⟨generate_rename_names hr, result_rename_names hr⟩⟩
  · intro limit source source' hws hws'
    rw [compileWith_eq_compileWords, compileWith_eq_compileWords, hws', hws]
    exact compileWords_rename hr limit ws
  · intro p hp
    refine ⟨Stmt.renameAll (renameWord r) p, ?_, fun limit fuel => ?_⟩
    · rw [program_renameWord, hp, Except.map]
    · exact Eval.result_rename (renameWord_injective hr) limit fuel p

/-- `x` and `y` change places in words that read `y` too early; of the names of a program in which
only `x` occurs, all become `n`. -/
theorem names_irrelevant_swap :
    compileWords 8 ["y", "AWOO", "1", "y", "AWOO", "y", "WOOF", "x"] =
      .error (.lowering ⟨.unassigned "x", ["compiling assigned value"]⟩) ∧
    Lower.generate 0 [.assign "n" (.atom (.literal 3)), .assign "n" (.atom (.name "n"))] =
      Lower.generate 0 [.assign "x" (.atom (.literal 3)), .assign "x" (.atom (.name "x"))] ∧
    Eval.evaluate 2 [.assign "n" (.atom (.literal 3)), .assign "n" (.atom (.name "n"))] =
      some (.ok (some 3)) := by
  have hx : classify "x" = .plain := by decide
  have hy : classify "y" = .plain := by decide
  obtain ⟨hcompile, -, -⟩ := names_irrelevant.1 (Equiv.swap ⟨"x", hx⟩ ⟨"y", hy⟩)
    (Equiv.injective _) ["x", "AWOO", "1", "x", "AWOO", "x", "WOOF", "y"]
  obtain ⟨hgenerate, hresult⟩ := names_irrelevant.2 (fun _ => "n")
    [.assign "x" (.atom (.literal 3)), .assign "x" (.atom (.name "x"))] (by decide)
  rw [Eval.evaluate_eq_result]
  exact ⟨hcompile 8, hgenerate 0, hresult none 2⟩

end Kennel
