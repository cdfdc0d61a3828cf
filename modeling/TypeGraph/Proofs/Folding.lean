import TypeGraph.Proofs.Outcome
import TypeGraph.SizeExpr

/-!
Folding a size while it is put together. Main statements: a product that is folded evaluates as its
bare node does, unless a factor zero hides that the other factor cannot be evaluated
(`SizeExpr.FoldsTo.eval_eq_or`), and it is refused only for an overflow of constants
(`SizeExpr.mul?_eq_none_iff`); a quotient that is folded evaluates as its bare node does
(`SizeExpr.exists_divide`); and an expression that is folded throughout evaluates to whatever the
bare one does (`SizeExpr.exists_folded`). An expression that divides by no zero is never at fault
for that (`SizeExpr.DividesByPositive.eval_ne`).
-/

namespace TypeGraph

namespace Count

theorem mul?_comm (a b : Count) : mul? a b = mul? b a := by
  rw [mul?, mul?, Nat.mul_comm]

theorem ofNat?_toNat (a : Count) : ofNat? a.toNat = some a := ofNat?_eq_some_iff.mpr rfl

theorem zero_mul? (a : Count) : mul? 0 a = some 0 := by
  rw [mul?, UInt64.toNat_zero, Nat.zero_mul]
  rfl

theorem mul?_zero (a : Count) : mul? a 0 = some 0 := by
  rw [mul?_comm, zero_mul?]

theorem one_mul? (a : Count) : mul? 1 a = some a := by
  rw [mul?, UInt64.toNat_one, Nat.one_mul, ofNat?_toNat]

theorem mul?_one (a : Count) : mul? a 1 = some a := by
  rw [mul?_comm, one_mul?]

theorem ceilDiv_one (a : Count) : ceilDiv a 1 = a := by
  apply UInt64.toNat_inj.mp
  rw [toNat_ceilDiv (by decide), UInt64.toNat_one]
  omega

end Count

namespace SizeExpr

variable {runtime : ExprId → Count} {lhs rhs expr : SizeExpr} {a b n divisor : Count}

/-! ### Products -/

/-- What the product of two sizes is folded to. -/
inductive FoldsTo : SizeExpr → SizeExpr → SizeExpr → Prop where
  | constants {a b product : Count} (mul_eq : Count.mul? a b = some product) :
      FoldsTo (.const a) (.const b) (.const product)
  | zeroLeft (rhs : SizeExpr) : FoldsTo (.const 0) rhs (.const 0)
  | zeroRight (lhs : SizeExpr) : FoldsTo lhs (.const 0) (.const 0)
  | oneLeft (rhs : SizeExpr) : FoldsTo (.const 1) rhs rhs
  | oneRight (lhs : SizeExpr) : FoldsTo lhs (.const 1) lhs
  | node (lhs rhs : SizeExpr) : FoldsTo lhs rhs (.mul lhs rhs)

theorem foldsTo_of_mul? (h : mul? lhs rhs = some expr) : FoldsTo lhs rhs expr := by
  unfold mul? at h
  split at h
  · obtain ⟨product, hproduct, rfl⟩ := Option.map_eq_some_iff.mp h
    exact .constants hproduct
  · split_ifs at h with hzero hone hone' <;> cases h
    · rcases hzero with rfl | rfl
      · exact .zeroLeft rhs
      · exact .zeroRight lhs
    · subst hone
      exact .oneLeft rhs
    · subst hone'
      exact .oneRight lhs
    · exact .node lhs rhs

/-- Only a product of constants is refused, if it does not fit. -/
theorem mul?_eq_none_iff : mul? lhs rhs = none ↔
    ∃ a b, lhs = .const a ∧ rhs = .const b ∧ UInt64.size ≤ a.toNat * b.toNat := by
  constructor
  · intro h
    unfold mul? at h
    split at h
    · next a b => exact ⟨a, b, rfl, rfl, Count.ofNat?_eq_none_iff.mp (Option.map_eq_none_iff.mp h)⟩
    · split_ifs at h
  · rintro ⟨a, b, rfl, rfl, hsize⟩
    exact Option.map_eq_none_iff.mpr (Count.ofNat?_eq_none_iff.mpr hsize)

/-- The bare node of a product evaluates to the product of its factors, and only where that
fits. -/
theorem eval_mul_eq_ok : (mul lhs rhs).eval runtime = .ok n ↔
    ∃ a b, lhs.eval runtime = .ok a ∧ rhs.eval runtime = .ok b ∧ Count.mul? a b = some n := by
  rw [eval, bind_eq_ok]
  constructor
  · rintro ⟨a, ha, h⟩
    obtain ⟨b, hb, h⟩ := bind_eq_ok.mp h
    cases hn : Count.mul? a b <;> simp [hn] at h
    exact ⟨a, b, ha, hb, h ▸ hn⟩
  · rintro ⟨a, b, ha, hb, hn⟩
    exact ⟨a, ha, bind_eq_ok.mpr ⟨b, hb, by simp [hn]⟩⟩

theorem eval_mul_eq_error {error : EvalError} (h : (mul lhs rhs).eval runtime = .error error) :
    lhs.eval runtime = .error error ∨ rhs.eval runtime = .error error ∨ error = .overflow := by
  rw [eval] at h
  rcases bind_eq_error.mp h with hl | ⟨a, _, h⟩
  · exact Or.inl hl
  rcases bind_eq_error.mp h with hr | ⟨b, _, h⟩
  · exact Or.inr (Or.inl hr)
  cases hn : Count.mul? a b <;> simp [hn] at h
  exact Or.inr (Or.inr h.symm)

/-- A factor one changes nothing, nor does it where the other factor cannot be evaluated. -/
theorem eval_one_mul (expr : SizeExpr) (runtime : ExprId → Count) :
    (mul (.const 1) expr).eval runtime = expr.eval runtime := by
  cases h : expr.eval runtime with
  | ok b => exact eval_mul_eq_ok.mpr ⟨1, b, rfl, h, Count.one_mul? b⟩
  | error error => exact bind_of_error h _

theorem eval_mul_one (expr : SizeExpr) (runtime : ExprId → Count) :
    (mul expr (.const 1)).eval runtime = expr.eval runtime := by
  cases h : expr.eval runtime with
  | ok a => exact eval_mul_eq_ok.mpr ⟨a, 1, h, rfl, Count.mul?_one a⟩
  | error error => exact bind_of_error h _

/-- One factor is a constant zero, and the other cannot be evaluated. -/
def Hides (runtime : ExprId → Count) (lhs rhs : SizeExpr) (error : EvalError) : Prop :=
  lhs = .const 0 ∧ rhs.eval runtime = .error error ∨
    rhs = .const 0 ∧ lhs.eval runtime = .error error

/-- A folded product evaluates as its bare node does, unless a factor zero hides that the other
factor cannot be evaluated. -/
theorem FoldsTo.eval_eq_or (h : FoldsTo lhs rhs expr) (runtime : ExprId → Count) :
    expr.eval runtime = (mul lhs rhs).eval runtime ∨
      expr = .const 0 ∧ ∃ error, Hides runtime lhs rhs error := by
  cases h with
  | constants hproduct => exact Or.inl (eval_mul_eq_ok.mpr ⟨_, _, rfl, rfl, hproduct⟩).symm
  | zeroLeft =>
      cases hr : rhs.eval runtime with
      | ok b => exact Or.inl (eval_mul_eq_ok.mpr ⟨0, b, rfl, hr, Count.zero_mul? b⟩).symm
      | error error => exact Or.inr ⟨rfl, error, Or.inl ⟨rfl, hr⟩⟩
  | zeroRight =>
      cases hl : lhs.eval runtime with
      | ok a => exact Or.inl (eval_mul_eq_ok.mpr ⟨a, 0, hl, rfl, Count.mul?_zero a⟩).symm
      | error error => exact Or.inr ⟨rfl, error, Or.inr ⟨rfl, hl⟩⟩
  | oneLeft => exact Or.inl (eval_one_mul _ runtime).symm
  | oneRight => exact Or.inl (eval_mul_one _ runtime).symm
  | node => exact Or.inl rfl

/-- The folded product of two sizes is there, and evaluates to their product, where that fits. -/
theorem exists_mul? (ha : lhs.eval runtime = .ok a) (hb : rhs.eval runtime = .ok b)
    (hn : Count.mul? a b = some n) :
    ∃ expr, mul? lhs rhs = some expr ∧ expr.eval runtime = .ok n := by
  have hnode := eval_mul_eq_ok.mpr ⟨a, b, ha, hb, hn⟩
  cases h : mul? lhs rhs with
  | none =>
      obtain ⟨a', b', rfl, rfl, hsize⟩ := mul?_eq_none_iff.mp h
      cases ha
      cases hb
      cases hn.symm.trans (Count.ofNat?_eq_none_iff.mpr hsize)
  | some expr =>
      refine ⟨expr, rfl, ?_⟩
      rcases (foldsTo_of_mul? h).eval_eq_or runtime with heq | ⟨_, error, ⟨_, he⟩ | ⟨_, he⟩⟩
      · exact heq.trans hnode
      · cases hb.symm.trans he
      · cases ha.symm.trans he

/-! ### Quotients -/

theorem eval_ceilDiv (lhs : SizeExpr) (hd : divisor ≠ 0) (runtime : ExprId → Count) :
    (ceilDiv lhs divisor).eval runtime = (lhs.eval runtime).map (·.ceilDiv divisor) := by
  rw [eval]
  cases lhs.eval runtime with
  | ok a => exact if_neg hd
  | error error => rfl

theorem eval_ceilDiv_eq_ok : (ceilDiv lhs divisor).eval runtime = .ok n ↔
    ∃ a, lhs.eval runtime = .ok a ∧ divisor ≠ 0 ∧ a.ceilDiv divisor = n := by
  rw [eval, bind_eq_ok]
  constructor
  · rintro ⟨a, ha, h⟩
    by_cases hd : divisor = 0 <;> simp [hd] at h
    exact ⟨a, ha, hd, h⟩
  · rintro ⟨a, ha, hd, rfl⟩
    exact ⟨a, ha, if_neg hd⟩

theorem eval_ceilDiv_eq_error {error : EvalError}
    (h : (ceilDiv lhs divisor).eval runtime = .error error) :
    lhs.eval runtime = .error error ∨ divisor = 0 ∧ error = .divisionByZero := by
  rw [eval] at h
  rcases bind_eq_error.mp h with hl | ⟨a, _, h⟩
  · exact Or.inl hl
  by_cases hd : divisor = 0 <;> simp [hd] at h
  exact Or.inr ⟨hd, h.symm⟩

/-- The folded quotient by a positive divisor is there, and evaluates as the bare node does. -/
theorem exists_divide (lhs : SizeExpr) (hd : divisor ≠ 0) :
    ∃ expr, lhs.divide divisor = .ok expr ∧
      ∀ runtime, expr.eval runtime = (ceilDiv lhs divisor).eval runtime := by
  unfold divide
  by_cases hone : divisor = 1
  · refine ⟨lhs, if_pos hone, fun runtime => ?_⟩
    rw [eval_ceilDiv lhs hd, hone]
    cases lhs.eval runtime with
    | ok a => exact congrArg Except.ok (Count.ceilDiv_one a).symm
    | error error => rfl
  · rw [if_neg hone]
    cases lhs with
    | const value =>
        refine ⟨.const (value.ceilDiv divisor), if_neg hd, fun runtime => ?_⟩
        rw [eval_ceilDiv _ hd]
        rfl
    | _ => exact ⟨_, rfl, fun runtime => rfl⟩

theorem divide_const (value : Count) (hd : divisor ≠ 0) :
    (const value).divide divisor = .ok (.const (value.ceilDiv divisor)) := by
  unfold divide
  by_cases hone : divisor = 1
  · rw [if_pos hone, hone, Count.ceilDiv_one]
  · rw [if_neg hone]
    exact if_neg hd

/-! ### Divisors -/

/-- No divisor in an expression is zero. -/
def DividesByPositive : SizeExpr → Prop
  | .const _ | .runtime _ => True
  | .mul lhs rhs => lhs.DividesByPositive ∧ rhs.DividesByPositive
  | .ceilDiv lhs divisor => lhs.DividesByPositive ∧ divisor ≠ 0

namespace DividesByPositive

theorem mul? (hl : lhs.DividesByPositive) (hr : rhs.DividesByPositive)
    (h : SizeExpr.mul? lhs rhs = some expr) : expr.DividesByPositive := by
  cases foldsTo_of_mul? h with
  | constants | zeroLeft | zeroRight => exact trivial
  | oneLeft => exact hr
  | oneRight => exact hl
  | node => exact ⟨hl, hr⟩

theorem divide (hl : lhs.DividesByPositive) (hd : divisor ≠ 0)
    (h : lhs.divide divisor = .ok expr) : expr.DividesByPositive := by
  unfold SizeExpr.divide at h
  by_cases hone : divisor = 1
  · rw [if_pos hone] at h
    cases h
    exact hl
  · rw [if_neg hone] at h
    cases lhs with
    | const value =>
        dsimp only at h
        rw [if_neg hd] at h
        cases h
        exact trivial
    | _ =>
        cases h
        exact ⟨hl, hd⟩

/-- Evaluation fails for an overflow only. -/
theorem eval_ne (h : expr.DividesByPositive) (runtime : ExprId → Count) :
    expr.eval runtime ≠ .error .divisionByZero := by
  induction expr with
  | const value | runtime expr => simp [eval]
  | mul lhs rhs ihl ihr =>
      intro herror
      rcases eval_mul_eq_error herror with hl | hr | hoverflow
      · exact ihl h.1 hl
      · exact ihr h.2 hr
      · cases hoverflow
  | ceilDiv lhs divisor ih =>
      intro herror
      rcases eval_ceilDiv_eq_error herror with hl | ⟨hzero, _⟩
      · exact ih h.1 hl
      · exact h.2 hzero

end DividesByPositive

/-- Without a zero divisor, only an overflow is hidden. -/
theorem Hides.eq_overflow {error : EvalError} (h : Hides runtime lhs rhs error)
    (hl : lhs.DividesByPositive) (hr : rhs.DividesByPositive) : error = .overflow := by
  cases error with
  | overflow => rfl
  | divisionByZero =>
      rcases h with ⟨_, herror⟩ | ⟨_, herror⟩
      · exact absurd herror (hr.eval_ne runtime)
      · exact absurd herror (hl.eval_ne runtime)

/-! ### Whole expressions -/

/-- The same expression, put together by folding throughout. -/
def folded : SizeExpr → Except EvalError SizeExpr
  | .const value => .ok (.const value)
  | .runtime expr => .ok (.runtime expr)
  | .mul lhs rhs => do
      let a ← lhs.folded
      let b ← rhs.folded
      match mul? a b with
      | some product => .ok product
      | none => .error .overflow
  | .ceilDiv lhs divisor => do
      let a ← lhs.folded
      a.divide divisor

/-- Folding throughout goes well wherever the bare expression can be evaluated, and keeps its
value. -/
theorem exists_folded (h : expr.eval runtime = .ok n) :
    ∃ built, expr.folded = .ok built ∧ built.eval runtime = .ok n := by
  induction expr generalizing n with
  | const value | runtime expr => exact ⟨_, rfl, h⟩
  | mul lhs rhs ihl ihr =>
      obtain ⟨a, b, ha, hb, hn⟩ := eval_mul_eq_ok.mp h
      obtain ⟨left, hleft, hla⟩ := ihl ha
      obtain ⟨right, hright, hrb⟩ := ihr hb
      obtain ⟨built, hbuilt, heval⟩ := exists_mul? hla hrb hn
      refine ⟨built, ?_, heval⟩
      simp only [folded, hleft, hright, ok_bind, hbuilt]
  | ceilDiv lhs divisor ih =>
      obtain ⟨a, ha, hd, rfl⟩ := eval_ceilDiv_eq_ok.mp h
      obtain ⟨left, hleft, hla⟩ := ih ha
      obtain ⟨built, hbuilt, heval⟩ := exists_divide left hd
      refine ⟨built, ?_, (heval runtime).trans (eval_ceilDiv_eq_ok.mpr ⟨a, hla, hd, rfl⟩)⟩
      rw [folded, hleft, ok_bind, hbuilt]

/-- How the folded product of two sizes, and a folded quotient of the first, compare with the bare
nodes: a value of the node is the value of what is folded, a product is refused only if it is one of
constants that overflows, a value that only the folded product has is the zero of a factor beside
one that overflows, and quotients by what is positive do not differ. -/
structure FoldsAlike (lhs rhs : SizeExpr) : Prop where
  product : ∀ runtime n, (mul lhs rhs).eval runtime = .ok n →
    ∃ expr, mul? lhs rhs = some expr ∧ expr.eval runtime = .ok n
  refused : mul? lhs rhs = none ↔
    ∃ a b, lhs = .const a ∧ rhs = .const b ∧ UInt64.size ≤ a.toNat * b.toNat
  hidden : ∀ runtime expr n error, mul? lhs rhs = some expr → expr.eval runtime = .ok n →
    (mul lhs rhs).eval runtime = .error error → n = 0 ∧ Hides runtime lhs rhs .overflow
  quotient : ∀ divisor, divisor ≠ 0 → ∃ expr, lhs.divide divisor = .ok expr ∧
    ∀ runtime, expr.eval runtime = (ceilDiv lhs divisor).eval runtime

/-- Folding keeps values, at each node of expressions that divide by no zero and so throughout. -/
theorem DividesByPositive.folds_alike (hl : lhs.DividesByPositive) (hr : rhs.DividesByPositive) :
    FoldsAlike lhs rhs ∧ ∀ (whole : SizeExpr) (runtime : ExprId → Count) (n : Count),
      whole.eval runtime = .ok n →
        ∃ built, whole.folded = .ok built ∧ built.eval runtime = .ok n := by
  refine ⟨?_, fun whole runtime n => exists_folded⟩
  constructor
  case product =>
    intro runtime n h
    obtain ⟨a, b, ha, hb, hn⟩ := eval_mul_eq_ok.mp h
    exact exists_mul? ha hb hn
  case refused => exact mul?_eq_none_iff
  case hidden =>
    intro runtime expr n error h hn herror
    rcases (foldsTo_of_mul? h).eval_eq_or runtime with heq | ⟨rfl, own, hhides⟩
    · cases hn.symm.trans (heq.trans herror)
    cases hn
    cases hhides.eq_overflow hl hr
    exact ⟨rfl, hhides⟩
  case quotient => exact fun divisor => exists_divide lhs

/-- A zero beside a square that overflows, and twice a third of a side that loses its factor one. -/
theorem DividesByPositive.folds_alike_square :
    let side : SizeExpr := .runtime ⟨0⟩
    let square : SizeExpr := .mul side side
    let whole : SizeExpr := .mul (.const 2) (.ceilDiv (.mul (.const 1) side) 3)
    let runtime : ExprId → Count := fun _ => 0x100000000
    (const 0).DividesByPositive ∧ square.DividesByPositive ∧ FoldsAlike (.const 0) square ∧
      Hides runtime (.const 0) square .overflow ∧
      whole.folded = .ok (.mul (.const 2) (.ceilDiv side 3)) ∧
      (mul (.const 2) (.ceilDiv side 3)).eval runtime = .ok 2863311532 := by
  intro side square whole runtime
  have hzero : (const 0).DividesByPositive := trivial
  have hsquare : square.DividesByPositive := ⟨trivial, trivial⟩
  obtain ⟨halike, hwhole⟩ := DividesByPositive.folds_alike hzero hsquare
  obtain ⟨_, hhides⟩ := halike.hidden runtime (.const 0) 0 .overflow (by decide) (by decide)
    (by decide)
  obtain ⟨built, hbuilt, heval⟩ := hwhole whole runtime 2863311532 (by decide)
  have hfolded : whole.folded = .ok (.mul (.const 2) (.ceilDiv side 3)) := by decide
  cases hfolded.symm.trans hbuilt
  exact ⟨hzero, hsquare, halike, hhides, hfolded, heval⟩

end SizeExpr

end TypeGraph
