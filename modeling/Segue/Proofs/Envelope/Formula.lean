import Segue.Envelope
import Segue.Proofs.Exact

/-!
The expression of a volume automation as the engine reads it: as a formula with sums, products,
brackets, `if` and `lt`. Main statements: the text of an expression is made of its tokens, they are
read as the formula that the expression means, and without rounding the formula evaluates to the
gain, as long as no line has a length of zero.
-/

namespace Segue.Envelope

inductive Token (α : Type) where
  | number (value : α)
  /-- The variable `t`. -/
  | time
  /-- The function `if`. -/
  | choose
  /-- The function `lt`. -/
  | less
  | opening
  | closing
  | comma
  | plus
  | minus
  | times
  | slash

/-- What the engine understands of an expression. -/
inductive Formula (α : Type) where
  | number (value : α)
  | time
  | add (left right : Formula α)
  | sub (left right : Formula α)
  | mul (left right : Formula α)
  | div (left right : Formula α)
  | less (left right : Formula α)
  | choose (condition holds fails : Formula α)

def Token.text : Token Float → String
  | number value => Envelope.number value
  | time => "t"
  | choose => "if"
  | less => "lt"
  | opening => "("
  | closing => ")"
  | comma => ","
  | plus => "+"
  | minus => "-"
  | times => "*"
  | slash => "/"

variable {α : Type}

def afterComma? : List (Token α) → Option (List (Token α))
  | .comma :: rest => some rest
  | _ => none

def afterClosing? : List (Token α) → Option (List (Token α))
  | .closing :: rest => some rest
  | _ => none

-- Sums of products of factors, each read together with what stands behind it. Both go from left to right.
mutual

def readSum? : Nat → List (Token α) → Option (Formula α × List (Token α))
  | 0, _ => none
  | fuel + 1, tokens => do
    let (first, rest) ← readProduct? fuel tokens
    readTerms? fuel first rest

/-- The sum of what has been read and the products that follow. -/
def readTerms? : Nat → Formula α → List (Token α) → Option (Formula α × List (Token α))
  | 0, _, _ => none
  | fuel + 1, sum, .plus :: rest => do
    let (term, rest) ← readProduct? fuel rest
    readTerms? fuel (.add sum term) rest
  | fuel + 1, sum, .minus :: rest => do
    let (term, rest) ← readProduct? fuel rest
    readTerms? fuel (.sub sum term) rest
  | _ + 1, sum, rest => some (sum, rest)

def readProduct? : Nat → List (Token α) → Option (Formula α × List (Token α))
  | 0, _ => none
  | fuel + 1, tokens => do
    let (first, rest) ← readFactor? fuel tokens
    readFactors? fuel first rest

/-- The product of what has been read and the factors that follow. -/
def readFactors? : Nat → Formula α → List (Token α) → Option (Formula α × List (Token α))
  | 0, _, _ => none
  | fuel + 1, product, .times :: rest => do
    let (factor, rest) ← readFactor? fuel rest
    readFactors? fuel (.mul product factor) rest
  | fuel + 1, product, .slash :: rest => do
    let (factor, rest) ← readFactor? fuel rest
    readFactors? fuel (.div product factor) rest
  | _ + 1, product, rest => some (product, rest)

/-- A number, the time, a sum in brackets or a call. -/
def readFactor? : Nat → List (Token α) → Option (Formula α × List (Token α))
  | _ + 1, .number value :: rest => some (.number value, rest)
  | _ + 1, .time :: rest => some (.time, rest)
  | fuel + 1, .opening :: rest => do
    let (sum, rest) ← readSum? fuel rest
    return (sum, ← afterClosing? rest)
  | fuel + 1, .less :: .opening :: rest => do
    let (left, rest) ← readSum? fuel rest
    let (right, rest) ← readSum? fuel (← afterComma? rest)
    return (.less left right, ← afterClosing? rest)
  | fuel + 1, .choose :: .opening :: rest => do
    let (condition, rest) ← readSum? fuel rest
    let (holds, rest) ← readSum? fuel (← afterComma? rest)
    let (fails, rest) ← readSum? fuel (← afterComma? rest)
    return (.choose condition holds fails, ← afterClosing? rest)
  | _, _ => none

end

/-- The formula that tokens are, as a whole. Every bracket takes three of the calls above and is
made of as many tokens, so that there are always enough. -/
def read? (tokens : List (Token α)) : Option (Formula α) :=
  match readSum? (tokens.length + 3) tokens with
  | some (formula, []) => some formula
  | _ => none

/-- The value of a formula at a time. A condition is an ordinary number, of which zero says no, and
what is not chosen is not evaluated. Nothing is divided by zero. -/
def Formula.evaluate? (time : Rat) : Formula Rat → Option Rat
  | number value => some value
  | .time => some time
  | add left right => return (← left.evaluate? time) + (← right.evaluate? time)
  | sub left right => return (← left.evaluate? time) - (← right.evaluate? time)
  | mul left right => return (← left.evaluate? time) * (← right.evaluate? time)
  | div left right => do
    let dividend ← left.evaluate? time
    let divisor ← right.evaluate? time
    if divisor = 0 then none else some (dividend / divisor)
  | less left right => do
    let first ← left.evaluate? time
    let second ← right.evaluate? time
    return if first < second then 1 else 0
  | choose condition holds fails => do
    let decision ← condition.evaluate? time
    if decision = 0 then fails.evaluate? time else holds.evaluate? time

/-- The value that the engine computes from tokens. -/
def engineValue? (time : Rat) (tokens : List (Token Rat)) : Option Rat :=
  (read? tokens).bind (Formula.evaluate? time)

namespace Expr

def tokens : Expr α → List (Token α)
  | constant value => [.number value]
  | line value growth start span =>
    [.number value, .plus, .opening, .number growth, .closing, .times, .opening, .time, .minus, .number start, .closing,
      .slash, .number span]
  | .until bound before after =>
    [.choose, .opening, .less, .opening, .time, .comma, .number bound, .closing, .comma] ++ before.tokens ++ [.comma]
      ++ after.tokens ++ [.closing]

def formula : Expr α → Formula α
  | constant value => .number value
  | line value growth start span =>
    .add (.number value) (.div (.mul (.number growth) (.sub .time (.number start))) (.number span))
  | .until bound before after => .choose (.less .time (.number bound)) before.formula after.formula

/-- The text of an expression is that of its tokens, one after the other. -/
theorem join_tokens (expr : Expr Float) : String.join (expr.tokens.map Token.text) = expr.text := by
  induction expr with
  | constant value => simp [tokens, text, Token.text, String.join]
  | line value growth start span => simp [tokens, text, Token.text, String.join, String.append_assoc]
  | «until» bound before after ihBefore ihAfter =>
      have hopening : "if(lt(t," = "if" ++ ("(" ++ ("lt" ++ ("(" ++ ("t" ++ ",")))) := rfl
      have hclosing : ")," = ")" ++ "," := rfl
      rw [text, ← ihBefore, ← ihAfter, hopening, hclosing]
      simp only [tokens, Token.text, List.map_append, List.map_cons, List.map_nil, String.join_append, String.join_cons,
        String.join_nil, String.append_assoc, String.append_empty]

end Expr

/-- What stands here does not go on with a sum or a product. -/
def Stops : List (Token α) → Prop
  | .plus :: _ | .minus :: _ | .times :: _ | .slash :: _ => False
  | _ => True

variable {rest : List (Token α)}

theorem readTerms?_of_stops (hrest : Stops rest) (fuel : Nat) (sum : Formula α) :
    readTerms? (fuel + 1) sum rest = some (sum, rest) := by
  cases rest with
  | nil => rfl
  | cons token rest => cases token <;> first | rfl | exact hrest.elim

theorem readFactors?_of_stops (hrest : Stops rest) (fuel : Nat) (product : Formula α) :
    readFactors? (fuel + 1) product rest = some (product, rest) := by
  cases rest with
  | nil => rfl
  | cons token rest => cases token <;> first | rfl | exact hrest.elim

/-- A factor by itself is a sum. -/
theorem readSum?_of_factor {fuel : Nat} {tokens : List (Token α)} {factor : Formula α}
    (hfactor : readFactor? (fuel + 1) tokens = some (factor, rest)) (hrest : Stops rest) :
    readSum? (fuel + 3) tokens = some (factor, rest) := by
  have hproduct : readProduct? (fuel + 2) tokens = some (factor, rest) := by
    rw [readProduct?, hfactor]
    exact readFactors?_of_stops hrest fuel factor
  rw [readSum?, hproduct]
  exact readTerms?_of_stops hrest (fuel + 1) factor

theorem readSum?_line (value growth start span : α) (hrest : Stops rest) (fuel : Nat) :
    readSum? (fuel + 16) ((Expr.line value growth start span).tokens ++ rest) =
      some ((Expr.line value growth start span).formula, rest) := by
  simp [Expr.tokens, Expr.formula, readSum?, readTerms?, readProduct?, readFactors?, readFactor?, afterClosing?,
    readTerms?_of_stops hrest, readFactors?_of_stops hrest]

theorem readSum?_less (bound : α) (hrest : Stops rest) (fuel : Nat) :
    readSum? (fuel + 8) (.less :: .opening :: .time :: .comma :: .number bound :: .closing :: rest) =
      some (.less .time (.number bound), rest) := by
  refine readSum?_of_factor ?_ hrest
  simp [readFactor?, readSum?, readProduct?, readTerms?, readFactors?, afterComma?, afterClosing?]

/-- Where nothing goes on with it, an expression is read as what it means. -/
theorem readSum?_tokens (expr : Expr α) {fuel : Nat} (hrest : Stops rest) (hfuel : expr.tokens.length + 3 ≤ fuel) :
    readSum? fuel (expr.tokens ++ rest) = some (expr.formula, rest) := by
  induction expr generalizing fuel rest with
  | constant value =>
      obtain ⟨fuel, rfl⟩ := Nat.exists_eq_add_of_le' hfuel
      exact readSum?_of_factor rfl hrest
  | line value growth start span =>
      obtain ⟨fuel, rfl⟩ := Nat.exists_eq_add_of_le' hfuel
      exact readSum?_line value growth start span hrest fuel
  | «until» bound before after ihBefore ihAfter =>
      have hlength : (Expr.until bound before after).tokens.length =
          before.tokens.length + after.tokens.length + 11 := by
        simp only [Expr.tokens, List.length_append, List.length_cons, List.length_nil]
        omega
      obtain ⟨fuel, rfl⟩ : ∃ less, fuel = less + 14 := ⟨fuel - 14, by omega⟩
      have hbefore := @ihBefore (.comma :: (after.tokens ++ .closing :: rest)) (fuel + 11) trivial (by omega)
      have hafter := @ihAfter (.closing :: rest) (fuel + 11) trivial (by omega)
      have hless := @readSum?_less _ (.comma :: (before.tokens ++ .comma :: (after.tokens ++ .closing :: rest))) bound
        trivial (fuel + 3)
      refine readSum?_of_factor ?_ hrest
      simp [Expr.tokens, Expr.formula, readFactor?, hless, hbefore, hafter, afterComma?, afterClosing?]

/-- The tokens of an expression are read as what it means. -/
theorem read?_tokens (expr : Expr α) : read? expr.tokens = some expr.formula := by
  have hread := @readSum?_tokens _ [] expr _ trivial le_rfl
  rw [List.append_nil] at hread
  rw [read?, hread]

/-- No line of an expression has a length of zero. -/
def Expr.IsDivisible : Expr Rat → Prop
  | constant _ => True
  | line _ _ _ span => span ≠ 0
  | .until _ before after => before.IsDivisible ∧ after.IsDivisible

theorem Expr.evaluate?_formula {expr : Expr Rat} (h : expr.IsDivisible) (time : Rat) :
    expr.formula.evaluate? time = some (expr.value time) := by
  induction expr with
  | constant value => rfl
  | line value growth start span =>
      have hspan : span ≠ 0 := h
      simp only [formula, Formula.evaluate?, Option.pure_def, Option.bind_eq_bind, Option.bind_some, if_neg hspan]
      rfl
  | «until» bound before after ihBefore ihAfter =>
      have hbefore := ihBefore h.1
      have hafter := ihAfter h.2
      simp only [formula, value, Formula.evaluate?, Option.pure_def, Option.bind_eq_bind, Option.bind_some]
      by_cases htime : time < bound
      · rw [if_pos htime, if_pos htime, if_neg one_ne_zero, hbefore]
      · rw [if_neg htime, if_neg htime, if_pos rfl, hafter]

theorem engineValue?_tokens {expr : Expr Rat} (h : expr.IsDivisible) (time : Rat) :
    engineValue? time expr.tokens = some (expr.value time) := by
  rw [engineValue?, read?_tokens]
  exact Expr.evaluate?_formula h time

end Segue.Envelope
