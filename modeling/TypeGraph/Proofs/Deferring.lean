import TypeGraph.Proofs.Descent
import TypeGraph.Proofs.Folding

/-!
Sizes that are left to run time mean the sizes that are found at run time. Main statements: a store
that only grew measures what it held as before (`Store.Grows.size_eq`), a size left to run time
foretells the size of the type whose variable extents are fixed (`Store.Fixed.foretells`), and so
the queries for both agree in every store that requests led to (`Store.Reachable.deferred_sizes`).
-/

namespace TypeGraph

/-- The extent that an array has while the program runs. -/
def Extent.fixedBy (runtime : ExprId → Count) : Extent → Extent
  | .variable expr => .fixed (runtime expr)
  | extent => extent

/-- The type with each variable extent along its chain of array elements fixed to the value that it
has at run time. Arrays keep their qualifiers, and what is no array is left as it is. -/
def Build.fixExtents (runtime : ExprId → Count) (type : TypeId) : Build TypeId := do
  match ← query (·.view type) with
  | .array base extent =>
      let own ← query (·.qual type)
      let element ← Build.fixExtents runtime base.type
      qualify (← array element (extent.fixedBy runtime)) own
  | _ => return type
termination_by type.index
decreasing_by exact base.older

namespace Store

variable {store old new later : Store} {type fixed : TypeId} {runtime : ExprId → Count}

/-! ### What was held is measured as before -/

section Growing

theorem Holds.shape_eq (h : old.Holds type) (hext : old.Extends new) :
    new.shape type = old.shape type := by
  obtain ⟨node, hn⟩ := h
  rw [shape_eq_ok.mpr ⟨node, hn, rfl⟩, shape_eq_ok.mpr ⟨node, hext.node? hn, rfl⟩]

theorem Holds.qual_eq (h : old.Holds type) (hext : old.Extends new) :
    new.qual type = old.qual type := by
  obtain ⟨node, hn⟩ := h
  rw [qual_eq_ok.mpr ⟨node, hn, rfl⟩, qual_eq_ok.mpr ⟨node, hext.node? hn, rfl⟩]

theorem Holds.unqualified_eq (h : old.Holds type) (hext : old.Extends new)
    (hw : old.WellFormed) : new.unqualified type = old.unqualified type := by
  obtain ⟨plain, hp⟩ := h.exists_unqualified
  rw [hp, hext.unqualified hw hp]

variable (hg : old.Grows new)
include hg

theorem Grows.definition?_eq (type : TypeId) : new.definition? type = old.definition? type := by
  rw [Store.definition?, Store.definition?, hg.definitions]

theorem Grows.pointerSize_eq (h : old.Holds type) :
    new.pointerSize type = old.pointerSize type := by
  rw [Store.pointerSize, Store.pointerSize, h.qual_eq hg.extends_, hg.target]

variable (hw : old.WellFormed)
include hw

theorem Grows.classBody_eq (h : old.Holds type) : new.classBody type = old.classBody type := by
  simp only [Store.classBody, Store.classOwner, Store.kind, classBody?, h.shape_eq hg.extends_,
    h.unqualified_eq hg.extends_ hw, hg.definition?_eq]

theorem Grows.enumBody_eq (h : old.Holds type) : new.enumBody type = old.enumBody type := by
  simp only [Store.enumBody, Store.enumOwner, Store.kind, enumBody?, h.shape_eq hg.extends_,
    h.unqualified_eq hg.extends_ hw, hg.definition?_eq]

variable (hi : old.IntegralEnums)
include hi

theorem Grows.enumStorage_eq (h : old.Holds type) :
    new.enumStorage type = old.enumStorage type := by
  rw [Store.enumStorage, Store.enumStorage, hg.enumBody_eq hw h]
  cases hb : old.enumBody type with
  | error failure => rfl
  | ok body => simp only [ok_bind, builtinOf?, (hi.base hb).holds.shape_eq hg.extends_]

/-- A store that only grew gives what it held the same size, or refuses it for the same reason. -/
theorem Grows.size_eq (h : old.Holds type) : new.size type = old.size type := by
  refine hw.induct (P := fun type => new.size type = old.size type) (fun type seen hv ih => ?_) h
  have hheld := holds_of_view hv
  rw [Store.size, Store.size, hg.extends_.view hv, hv, ok_bind, ok_bind]
  cases seen with
  | array base extent => simp only [ih base]
  | pointer base | leftRef base | rightRef base => exact hg.pointerSize_eq (hheld.below base)
  | classType name isStruct => simp only [hg.classBody_eq hw hheld]
  | enumType name => simp only [hg.enumStorage_eq hw hi hheld, hg.target]
  | _ => simp only [ih, hg.target]

theorem Grows.deferredSize_eq (h : old.Holds type) :
    new.deferredSize type = old.deferredSize type := by
  refine hw.induct (P := fun type => new.deferredSize type = old.deferredSize type)
    (fun type seen hv ih => ?_) h
  have hsize := hg.size_eq hw hi (holds_of_view hv)
  rw [Store.deferredSize, Store.deferredSize, hg.extends_.view hv, hv, ok_bind, ok_bind]
  cases seen with
  | array base extent => simp only [ih base]
  | _ => simp only [hsize]

end Growing

/-! ### Types whose extents are fixed -/

/-- One type is the other at run time: along the chain of array elements, variable extents are
fixed to their values, and nothing else differs. -/
inductive Fixed (store : Store) (runtime : ExprId → Count) : TypeId → TypeId → Prop where
  | array {type fixed base element : TypeId} {extent : Extent} {own : Qual PathId}
      (node_eq : store.node? type = some ⟨.array base extent, own⟩)
      (base : Fixed store runtime base element)
      (fixed_eq : store.node? fixed = some ⟨.array element (extent.fixedBy runtime), own⟩) :
      Fixed store runtime type fixed
  | other {type : TypeId} {node : Node} (node_eq : store.node? type = some node)
      (other : node.shape.extent? = none) : Fixed store runtime type type

theorem Fixed.mono (h : old.Fixed runtime type fixed) (hext : old.Extends new) :
    new.Fixed runtime type fixed := by
  induction h with
  | array hn _ hfixed ih => exact .array (hext.node? hn) ih (hext.node? hfixed)
  | other hn hother => exact .other (hext.node? hn) hother

theorem Fixed.holds (h : store.Fixed runtime type fixed) : store.Holds fixed := by
  cases h with
  | array _ _ hfixed => exact ⟨_, hfixed⟩
  | other hn _ => exact ⟨_, hn⟩

theorem WellFormed.exists_array (hw : store.WellFormed) {element : TypeId}
    (h : store.Holds element) (extent : Extent) (own : Qual PathId) : ∃ array later,
      (do Build.qualify (← Build.array element extent) own : Build TypeId) store =
        .ok array later ∧
      store.Grows later ∧ store.Runs later ∧
      later.node? array = some ⟨.array element extent, own⟩ := by
  obtain ⟨node, hn⟩ := h
  -- The array comes first without qualifiers, then as the variant that has them.
  let shape : Shape TypeId ParamSetId PathId := .array element extent
  let plain := store.idOf (.plain shape)
  let mid := store.withNode (.plain shape)
  have harray : Build.array element extent store = .ok plain mid := by
    rw [Build.array, Build.run_check_bind, node_eq_ok.mpr hn]
    rfl
  have hqualify : Build.qualify plain own mid =
      .ok (mid.idOf ⟨shape, own⟩) (mid.withNode ⟨shape, own⟩) :=
    Build.run_qualify_eq_ok.mpr ⟨_, store.node?_withNode (.plain shape), rfl, rfl⟩
  have hkeeps : Keeps Safe (TypeRequest.run (.array element extent)) :=
    TypeRequest.keeps_run trivial
  have hgrows : store.Grows mid := hkeeps.of_ok harray hw
  have hgrows' := (Build.keeps_qualify plain own).of_ok hqualify hgrows.wellFormed
  have hstep : store.Step mid := ⟨.enter (.array element extent), trivial, after_of_ok harray⟩
  have hstep' : mid.Step (mid.withNode ⟨shape, own⟩) :=
    ⟨.qualify plain own, trivial, after_of_ok hqualify⟩
  exact ⟨_, _, (run_bind_of_ok harray).trans hqualify, hgrows.trans hgrows',
    (Relation.ReflTransGen.single hstep).tail hstep', mid.node?_withNode _⟩

/-- A type that is held can be fixed: that takes a few requests, none of which is refused. -/
theorem WellFormed.exists_fixed (hw : store.WellFormed) (runtime : ExprId → Count)
    (h : store.Holds type) : ∃ fixed later, Build.fixExtents runtime type store = .ok fixed later ∧
      store.Grows later ∧ store.Runs later ∧ later.Fixed runtime type fixed := by
  refine hw.induct (P := fun type => ∃ fixed later,
    Build.fixExtents runtime type store = .ok fixed later ∧
      store.Grows later ∧ store.Runs later ∧ later.Fixed runtime type fixed)
    (fun type seen hv ih => ?_) h
  obtain ⟨⟨shape, own⟩, hn⟩ := holds_of_view hv
  have hrel := rel_of_view hn hv
  rw [Build.fixExtents, Build.run_query_bind, hv]
  cases seen with
  | array base extent =>
      obtain ⟨element, mid, hrun, hgrows, hruns, hbase⟩ := ih base
      obtain ⟨fixed, later, hrun', hgrows', hruns', hfixed⟩ :=
        hgrows.wellFormed.exists_array hbase.holds (extent.fixedBy runtime) own
      refine ⟨fixed, later, ?_, hgrows.trans hgrows', hruns.trans hruns', ?_⟩
      · simp only [Build.answered, Build.run_query_bind, qual_eq_ok.mpr ⟨_, hn, rfl⟩]
        exact (run_bind_of_ok hrun).trans hrun'
      · cases hrel with
        | array _ heq =>
            subst heq
            have hext := hgrows'.extends_
            exact .array ((hgrows.trans hgrows').extends_.node? hn) (hbase.mono hext) hfixed
  | _ =>
      refine ⟨type, store, rfl, hw.grows, .refl, .other hn ?_⟩
      cases hrel
      rfl

end Store

/-! ### What is foretold of a size -/

/-- What a size that is left to run time foretells of the one that is found then: where there are
both, the first evaluates to the second; what has none before has none then; and what has one before
lacks it then only for being too large. -/
inductive Foretells (runtime : ExprId → Count) :
    Except Failure SizeExpr → Except Failure Count → Prop where
  | known {deferred : SizeExpr} {size : Count} (eval_eq : deferred.eval runtime = .ok size) :
      Foretells runtime (.ok deferred) (.ok size)
  | overflows (deferred : SizeExpr) (part : TypeId) :
      Foretells runtime (.ok deferred) (.error (.type (.sizeOverflow part)))
  | refused (failure failure' : Failure) : Foretells runtime (.error failure) (.error failure')

namespace Foretells

variable {runtime : ExprId → Count} {answer : Except Failure SizeExpr}
  {found : Except Failure Count}

theorem const (found : Except Failure Count) :
    Foretells runtime (do return .const (← found)) found := by
  cases found with
  | ok size => exact .known rfl
  | error failure => exact .refused failure failure

/-- If a size of an element foretells another one, then so do those of an array, provided that the
dimension is folded in as it is multiplied in later. -/
theorem times (h : Foretells runtime answer found) {fold : SizeExpr → Option SizeExpr}
    {count : Count} (hfold : ∀ deferred size product, deferred.eval runtime = .ok size →
      Count.mul? count size = some product →
      ∃ folded, fold deferred = some folded ∧ folded.eval runtime = .ok product)
    (array fixed : TypeId) :
    Foretells runtime (do orFail (.type (.sizeOverflow array)) (fold (← answer)))
      (do orFail (.type (.sizeOverflow fixed)) (Count.mul? count (← found))) := by
  cases h with
  | @known deferred size heval =>
      simp only [ok_bind]
      cases hproduct : Count.mul? count size with
      | some product =>
          obtain ⟨folded, hf, heval'⟩ := hfold deferred size product heval hproduct
          rw [hf]
          exact .known heval'
      | none =>
          cases fold deferred with
          | some folded => exact .overflows folded fixed
          | none => exact .refused _ _
  | overflows deferred part =>
      simp only [ok_bind]
      cases fold deferred with
      | some folded => exact .overflows folded part
      | none => exact .refused _ _
  | refused failure failure' => exact .refused failure failure'

theorem eval_eq {size : Count} (h : Foretells runtime answer (.ok size)) :
    ∃ deferred, answer = .ok deferred ∧ deferred.eval runtime = .ok size := by
  cases h with
  | known heval => exact ⟨_, rfl, heval⟩

theorem overflow {deferred : SizeExpr} {error : EvalError}
    (h : Foretells runtime (.ok deferred) found) (he : deferred.eval runtime = .error error) :
    ∃ part, found = .error (.type (.sizeOverflow part)) := by
  cases h with
  | known heval =>
      rw [heval] at he
      cases he
  | overflows _ part => exact ⟨part, rfl⟩

end Foretells

namespace Store

variable {store later : Store} {type fixed : TypeId} {runtime : ExprId → Count}

/-- The size that is left to run time foretells the size of the type whose extents are fixed. -/
theorem Fixed.foretells (hw : store.WellFormed) (h : store.Fixed runtime type fixed) :
    Foretells runtime (store.deferredSize type) (store.size fixed) := by
  induction h with
  | @array type fixed base element extent own hn _ hfixed ih =>
      obtain ⟨part, rfl, hv⟩ := view_array hw hn
      obtain ⟨part', rfl, hv'⟩ := view_array hw hfixed
      rw [Store.deferredSize, hv, ok_bind]
      dsimp only
      rw [Store.size, hv', ok_bind]
      -- A fixed dimension is folded in from the left and a variable one from the right.
      cases extent with
      | fixed count =>
          refine ih.times (fun deferred size product heval hproduct => ?_) type fixed
          exact SizeExpr.exists_mul? rfl heval hproduct
      | incomplete | unspecified => exact .refused _ _
      | _ =>
          refine ih.times (fun deferred size product heval hproduct => ?_) type fixed
          exact SizeExpr.exists_mul? heval rfl (Count.mul?_comm _ _ ▸ hproduct)
  | @other type node hn hother =>
      obtain ⟨seen, hv⟩ := hw.view hn
      have hextent := (rel_of_view hn hv).extent?_eq
      rw [Store.deferredSize, hv, ok_bind]
      cases seen with
      | array base extent => cases hother.symm.trans hextent
      | _ => exact .const _

/-! ### Divisors and constants -/

theorem dividesByPositive_deferredSize {deferred : SizeExpr}
    (h : store.deferredSize type = .ok deferred) : deferred.DividesByPositive := by
  induction hi : type.index using Nat.strongRecOn generalizing type deferred with
  | _ i ih =>
      subst hi
      rw [Store.deferredSize] at h
      obtain ⟨seen, hv, h⟩ := bind_eq_ok.mp h
      cases seen with
      | array base extent =>
          cases extent with
          | incomplete | unspecified => cases h
          | fixed count =>
              obtain ⟨part, hpart, h⟩ := bind_eq_ok.mp h
              have hbase := ih base.type.index base.older hpart rfl
              exact .mul? (by trivial) hbase (orFail_eq_ok.mp h)
          | _ =>
              obtain ⟨part, hpart, h⟩ := bind_eq_ok.mp h
              have hbase := ih base.type.index base.older hpart rfl
              exact .mul? hbase (by trivial) (orFail_eq_ok.mp h)
      | _ =>
          obtain ⟨size, _, h⟩ := bind_eq_ok.mp h
          cases h
          exact trivial

theorem deferredSize_of_size {size : Count} (h : store.size type = .ok size) :
    store.deferredSize type = .ok (.const size) := by
  induction hi : type.index using Nat.strongRecOn generalizing type size with
  | _ i ih =>
      subst hi
      have hself := h
      rw [Store.size] at h
      obtain ⟨seen, hv, h⟩ := bind_eq_ok.mp h
      rw [Store.deferredSize, hv, ok_bind]
      cases seen with
      | array base extent =>
          cases extent with
          | fixed count =>
              obtain ⟨part, hpart, h⟩ := bind_eq_ok.mp h
              have hproduct := orFail_eq_ok.mp h
              simp [ih base.type.index base.older hpart rfl, ok_bind, SizeExpr.mul?, hproduct,
                orFail]
          | _ => cases h
      | _ =>
          simp only [hself]
          rfl

theorem deferredPoints_eq (store : Store) (type : TypeId) :
    store.deferredPoints type = store.deferredSize type := by
  rw [Store.deferredPoints]
  cases store.deferredSize type with
  | error failure => rfl
  | ok deferred => cases deferred <;> rfl

theorem deferredWords_of_ok {deferred : SizeExpr} (h : store.deferredSize type = .ok deferred) :
    ∃ words, store.deferredWords type = .ok words ∧
      deferred.divide store.target.wordBytes = .ok words ∧
      ∀ runtime bytes, deferred.eval runtime = .ok bytes →
        words.eval runtime = .ok (store.target.words bytes) := by
  obtain ⟨words, hd, heval⟩ := SizeExpr.exists_divide deferred store.target.wordBytes_ne_zero
  refine ⟨words, ?_, hd, fun runtime bytes hbytes => ?_⟩
  · rw [Store.deferredWords, h, ok_bind, hd]
    rfl
  · rw [heval, SizeExpr.eval_ceilDiv _ store.target.wordBytes_ne_zero, hbytes]
    rfl

theorem dividesByPositive_deferredWords {words : SizeExpr}
    (h : store.deferredWords type = .ok words) : words.DividesByPositive := by
  obtain ⟨deferred, hd, _⟩ := bind_eq_ok.mp h
  obtain ⟨words', hw, hdivide, _⟩ := deferredWords_of_ok hd
  cases h.symm.trans hw
  exact (dividesByPositive_deferredSize hd).divide store.target.wordBytes_ne_zero hdivide

/-! ### Deferred and found sizes -/

/-- What a type promises of the type that it is at run time: its sizes that are left to run time
evaluate to those that are found then, they divide by no zero, where they cannot be evaluated the
type is too large then, and where the size is constant they are constants. -/
structure Defers (store later : Store) (runtime : ExprId → Count) (type fixed : TypeId) : Prop where
  evaluates : ∀ bytes, later.size fixed = .ok bytes → ∃ size points words count,
    store.deferredSize type = .ok size ∧ size.eval runtime = .ok bytes ∧
    store.deferredPoints type = .ok points ∧ points.eval runtime = .ok bytes ∧
    store.deferredWords type = .ok words ∧ words.eval runtime = .ok count ∧
    later.sizeWords fixed = .ok count
  divides : ∀ deferred, store.deferredSize type = .ok deferred ∨
    store.deferredPoints type = .ok deferred ∨ store.deferredWords type = .ok deferred →
    ∀ values, deferred.eval values ≠ .error .divisionByZero
  overflows : ∀ size error, store.deferredSize type = .ok size → size.eval runtime = .error error →
    ∃ part, later.size fixed = .error (.type (.sizeOverflow part))
  folds : ∀ bytes, store.size type = .ok bytes → ∃ points words,
    store.sizePoints type = .ok points ∧ store.sizeWords type = .ok words ∧
    store.deferredSize type = .ok (.const bytes) ∧
    store.deferredPoints type = .ok (.const points) ∧
    store.deferredWords type = .ok (.const words)

theorem Defers.of_foretells (ht : later.target = store.target)
    (h : Foretells runtime (store.deferredSize type) (later.size fixed)) :
    store.Defers later runtime type fixed where
  evaluates bytes hbytes := by
    rw [hbytes] at h
    obtain ⟨size, hs, heval⟩ := h.eval_eq
    obtain ⟨words, hw, _, hwords⟩ := deferredWords_of_ok hs
    refine ⟨size, size, words, store.target.words bytes, hs, heval, ?_, heval, hw,
      hwords runtime bytes heval, ?_⟩
    · rw [deferredPoints_eq, hs]
    · rw [Store.sizeWords, hbytes, ht]
      rfl
  divides deferred hd values := by
    rw [deferredPoints_eq] at hd
    rcases hd with hs | hs | hs
    · exact (dividesByPositive_deferredSize hs).eval_ne values
    · exact (dividesByPositive_deferredSize hs).eval_ne values
    · exact (dividesByPositive_deferredWords hs).eval_ne values
  overflows size error hs he := by
    rw [hs] at h
    exact h.overflow he
  folds bytes hbytes := by
    have hs := deferredSize_of_size hbytes
    refine ⟨bytes, store.target.words bytes, ?_, ?_, hs, ?_, ?_⟩
    · rw [Store.sizePoints, hbytes]
      rfl
    · rw [Store.sizeWords, hbytes]
      rfl
    · rw [deferredPoints_eq, hs]
    · rw [Store.deferredWords, hs, ok_bind,
        SizeExpr.divide_const bytes store.target.wordBytes_ne_zero]
      rfl

/-- In a store that requests led to, the sizes of a type that are left to run time mean, whatever
the values at run time, the sizes of the type that is asked for with its extents fixed to them. -/
theorem Reachable.deferred_sizes (h : store.Reachable) (hh : store.Holds type)
    (runtime : ExprId → Count) : ∃ fixed later,
      Build.fixExtents runtime type store = .ok fixed later ∧ store.Runs later ∧
      later.Fixed runtime type fixed ∧ store.Defers later runtime type fixed := by
  have hw := h.wellFormed
  obtain ⟨fixed, later, hrun, hgrows, hruns, hfixed⟩ := hw.exists_fixed runtime hh
  have hforetells := hfixed.foretells hgrows.wellFormed
  rw [hgrows.deferredSize_eq hw h.integralEnums hh] at hforetells
  exact ⟨fixed, later, hrun, hruns, hfixed, .of_foretells hgrows.target hforetells⟩

/-- Two rows of as many integers as are asked for at run time, which are five. -/
theorem Reachable.deferred_sizes_rows :
    let int : TypeId := .builtin (.int ⟨.int, true⟩)
    let row : TypeId := ⟨Builtin.all.length⟩
    let rows : TypeId := ⟨Builtin.all.length + 1⟩
    let runtime : ExprId → Count := fun _ => 5
    let store := (Store.new .wide).afterAll
      [.enter (.array int (.variable ⟨3⟩)), .enter (.array row (.fixed 2))]
    store.Reachable ∧ store.Holds rows ∧ ∃ fixed later,
      Build.fixExtents runtime rows store = .ok fixed later ∧ later.size fixed = .ok 40 ∧
      store.Defers later runtime rows fixed := by
  intro int row rows runtime store
  have hr : store.Reachable := (reachable_new .wide).afterAll (by
    simp [Request.Countable, TypeRequest.Countable])
  have hh : store.Holds rows := node?_of_lt (by decide +kernel)
  have hsize : outcome (Build.fixExtents runtime rows >>= fun fixed => Build.query (·.size fixed))
      store = .ok 40 := by decide +kernel
  obtain ⟨fixed, later, hrun, _, _, hdefers⟩ := hr.deferred_sizes hh runtime
  have hanswer := outcome_eq_ok.mp hsize
  rw [run_bind_of_ok hrun] at hanswer
  exact ⟨hr, hh, fixed, later, hrun, (Build.run_query_eq_ok.mp hanswer).1, hdefers⟩

end Store

end TypeGraph
