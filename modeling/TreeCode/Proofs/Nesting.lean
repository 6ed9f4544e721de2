import Mathlib.Data.List.Forall2
import Mathlib.Tactic.Common
import TreeCode.Proofs.Layout
import TreeCode.Proofs.Outcome
import TreeCode.Proofs.Reading
import TreeCode.Proofs.WellTyped

/-!
# Nesting

The reader bounds how deep the expressions of a text are nested, and with them the trees of a method
and the calls within calls in them.
-/

namespace TreeCode

namespace Source

mutual

/-- How many expressions are one within the other, the expression itself included. -/
def Expr.height : Expr → Nat
  | .expr _ children => Expr.heights children + 1

/-- The greatest height of some expressions. -/
def Expr.heights : List Expr → Nat
  | [] => 0
  | e :: es => max (Expr.height e) (Expr.heights es)

end

variable {stop fuel depth : Nat} {opening : Opening} {tokens rest : List Lexeme} {body : Body}

lemma depth_lt_of_readOpening (h : readOpening stop depth tokens = .ok (opening, rest)) :
    depth < maxDepth :=
  (exists_of_readOpening h).1

/-- Expressions are read below as many parentheses as may be open. -/
lemma heights_of_readBody (h : readBody stop fuel depth opening tokens = .ok (body, rest))
    (hdepth : depth ≤ maxDepth) : depth + Expr.heights body.children ≤ maxDepth := by
  induction fuel generalizing depth opening tokens body rest with
  | zero => simp [readBody] at h
  | succ fuel ih =>
    cases bodyRead_of_readBody h with
    | close => exact hdepth
    | child token opens within more =>
      have hlt := depth_lt_of_readOpening opens
      have hchild := ih within hlt
      have hrest := ih more hdepth
      simp only [Expr.heights, Expr.height]
      omega
    | field not_close not_open field more =>
      have hrest := ih more hdepth
      exact hrest

/-- **Expressions that are read are not nested deeper than the reader allows.** -/
theorem height_of_ofText {text : String} {e : Expr} (h : Expr.ofText text = .ok e) :
    e.height ≤ maxDepth := by
  obtain ⟨opening, rest, body, -, hbody, rfl⟩ := exists_of_ofText h
  have hheights := heights_of_readBody hbody (by decide)
  rw [Expr.height]
  omega

lemma height_le_of_mem {e : Expr} {es : List Expr} (h : e ∈ es) : e.height ≤ Expr.heights es := by
  induction es with
  | nil => simp at h
  | cons e' es ih =>
    rw [Expr.heights]
    rcases List.mem_cons.mp h with rfl | h
    · exact Nat.le_max_left _ _
    · exact Nat.le_trans (ih h) (Nat.le_max_right _ _)

end Source

open Source

variable {s : Scope}

mutual

/-- The calls within calls of a tree are nested no deeper than the expression it stands for. -/
lemma Node.levels_le_of_writtenBy : ∀ {e : Expr} {n : Node}, n.WrittenBy s e →
    n.callShape.levels ≤ e.height
  | .expr _ es, .node op _ _ children, h => by
    cases h with
    | node _ _ _ operands =>
      have hlevels := Node.levels_le_of_forall₂ operands
      rw [Node.callShape, Expr.height]
      split
      · exact Nat.succ_le_succ hlevels
      · exact Nat.le_succ_of_le hlevels

lemma Node.levels_le_of_forall₂ : ∀ {es : List Expr} {ns : List Node},
    List.Forall₂ (Node.WrittenBy s) es ns → (Node.callShapes ns).levels ≤ Expr.heights es
  | [], [], _ => Nat.zero_le _
  | _ :: _, _ :: _, .cons h hs =>
    Nat.max_le.mpr ⟨Nat.le_trans (Node.levels_le_of_writtenBy h) (Nat.le_max_left _ _),
      Nat.le_trans (Node.levels_le_of_forall₂ hs) (Nat.le_max_right _ _)⟩

end

/-- The calls of a method that is read from a text are not nested deeper than expressions are. -/
theorem Method.levels_le_of_writtenBy {text : String} {e : Expr} {m : Method}
    (he : Expr.ofText text = .ok e) (h : m.WrittenBy e) :
    (Node.callShapes m.trees).levels ≤ maxDepth := by
  refine Nat.le_trans (Node.levels_callShapes_le fun n hn => ?_) (height_of_ofText he)
  obtain ⟨b, hb, hn⟩ := List.mem_flatMap.mp hn
  obtain ⟨block, hblock, hwritten⟩ := exists_mem_of_forall₂ h b hb
  calc n.callShape.levels ≤ (Node.callShapes b.trees).levels := (Node.callShape_le_of_mem hn).1
    _ ≤ Expr.heights block.children := Node.levels_le_of_forall₂ hwritten.2
    _ ≤ block.height := by cases block; exact Nat.le_succ _
    _ ≤ Expr.heights e.children := height_le_of_mem hblock
    _ ≤ e.height := by cases e; exact Nat.le_succ _

end TreeCode
