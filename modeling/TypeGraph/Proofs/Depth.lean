import TypeGraph.Proofs.Harmless

/-!
How far readers go. Main statements: the depth that a reader of records is given makes no difference
once it is the number of items left (`Load.typeUpTo_of_length_le`), so that reading a record is the
recursion that its definition cuts off (`Load.type_eq`), and neither does by how much a count goes
beyond that number (`Load.times_of_length_lt`).
-/

namespace TypeGraph

variable {α β : Type}

namespace Load

open ItemReader

variable {loading : Loading} {n : Nat}

/-! ### Readers that agree -/

/-- Two readers do the same on well-formed stores while at most `n` items are left. -/
def Agree (n : Nat) (m m' : Load α) : Prop :=
  ∀ loading, loading.store.WellFormed → loading.items.length ≤ n → m loading = m' loading

theorem Agree.refl (m : Load α) : Agree n m m := fun _ _ _ => rfl

/-- After a reader that does no harm, no more items are left than before. -/
theorem Agree.bind {m m' : Load α} {f f' : α → Load β} {P : Store → α → Prop} (h : Agree n m m')
    (hm : Gives m P) (hf : ∀ a, Agree n (f a) (f' a)) : Agree n (m >>= f) (m' >>= f') := by
  intro loading hw hn
  obtain ⟨hg, _, hs, _⟩ := hm loading hw
  rw [run_bind, run_bind, ← h loading hw hn]
  simp only [after] at hg hs
  cases hrun : m loading with
  | error failure next => rfl
  | ok a next =>
      simp only [hrun] at hg hs
      exact hf a next hg.wellFormed (Nat.le_trans hs.length_le hn)

section Nested

variable {type type' : Load TypeId}

theorem agree_times (h : Agree n type type') (hg : Gives type Store.Holds) (count : Nat) :
    Agree n (times type count) (times type' count) := by
  induction count with
  | zero => exact .refl _
  | succ count ih =>
      exact h.bind hg fun _ => ih.bind (gives_times hg holds_mono count) fun _ => .refl _

theorem agree_params (h : Agree n type type') (hg : Gives type Store.Holds) :
    Agree n (params type) (params type') :=
  Agree.bind (.refl _) gives_count fun length => Agree.bind (.refl _) gives_bool fun _ =>
    (agree_times h hg length.toNat).bind (gives_times hg holds_mono _) fun _ => .refl _

theorem agree_fields (h : Agree n type type') (hg : Gives type Store.Holds) (tag : ShapeTag) :
    Agree n (fields type tag) (fields type' tag) := by
  have hderived : ∀ request : TypeId → Build TypeId,
      Agree n (do build (request (← type))) (do build (request (← type'))) :=
    fun request => h.bind hg fun _ => .refl _
  have hparams := agree_params h hg
  cases tag with
  | array => exact Agree.bind (.refl _) gives_count fun _ => hderived _
  | arrayVariable => exact Agree.bind (.refl _) gives_word fun _ => hderived _
  | bitfield =>
      exact Agree.bind (.refl _) gives_word fun _ => Agree.bind (.refl _) gives_word fun _ =>
        hderived _
  | arrayIncomplete | arrayUnspecified | pointer | leftRef | rightRef => exact hderived _
  | function =>
      exact h.bind hg fun _ => hparams.bind (gives_params hg) fun _ => .refl _
  | memberFunction =>
      exact h.bind hg fun _ => h.bind hg fun _ => hparams.bind (gives_params hg) fun _ => .refl _
  | memberPointer => exact h.bind hg fun _ => hderived _
  | tuple => exact hparams.bind (gives_params hg) fun _ => .refl _
  | struct | union | enum => exact .refl _

theorem agree_unqualified (h : Agree n type type') (hg : Gives type Store.Holds) (tag : String) :
    Agree n (unqualified type tag) (unqualified type' tag) := by
  unfold unqualified
  split
  · exact agree_fields h hg _
  · exact .refl _

/-- Records are read alike if the records in them are: these come after the tag. -/
theorem agree_record (h : Agree n type type') (hg : Gives type Store.Holds) :
    Agree (n + 1) (record type) (record type') := by
  intro loading hw hn
  unfold record
  rcases run_read takesOne_tag loading with ⟨tag, hrun⟩ | ⟨error, hrun⟩
  · -- The tag was an item, so the records after it have at most `n` left.
    rw [run_bind_of_ok hrun, run_bind_of_ok hrun]
    refine (agree_unqualified h hg tag).bind (gives_unqualified hg tag) (fun _ => .refl _) _ hw ?_
    rw [List.length_tail]
    exact Nat.sub_le_of_le_add hn
  · rw [run_bind, run_bind, hrun]

end Nested

/-! ### Records of any depth -/

/-- Without items there is no tag. -/
theorem typeUpTo_nil (depth : Nat) (store : Store) :
    typeUpTo depth ⟨store, []⟩ = .error (.archive (.unexpectedEnd "tag")) ⟨store, []⟩ := by
  cases depth <;> rfl

/-- Every record in a record has fewer items left to it, whatever the depth that is allowed. -/
theorem agree_typeUpTo {depth depth' : Nat} (h : n ≤ depth) (h' : n ≤ depth') :
    Agree n (typeUpTo depth) (typeUpTo depth') := by
  induction n generalizing depth depth' with
  | zero =>
      rintro ⟨store, items⟩ _ hn
      obtain rfl := List.length_eq_zero_iff.mp (Nat.le_zero.mp hn)
      rw [typeUpTo_nil, typeUpTo_nil]
  | succ n ih =>
      obtain ⟨depth, rfl⟩ := Nat.exists_eq_add_of_le' h
      obtain ⟨depth', rfl⟩ := Nat.exists_eq_add_of_le' h'
      exact agree_record (ih (Nat.le_add_left n depth) (Nat.le_add_left n depth'))
        (gives_typeUpTo _)

/-- No record is nested deeper than there are items. -/
theorem typeUpTo_of_length_le (hw : loading.store.WellFormed) {depth : Nat}
    (h : loading.items.length ≤ depth) : typeUpTo depth loading = type loading :=
  agree_typeUpTo h (Nat.le_refl _) loading hw (Nat.le_refl _)

/-- Reading a type is reading a record whose nested records are read as types. -/
theorem type_eq (hw : loading.store.WellFormed) : type loading = record type loading := by
  have hagree : Agree loading.items.length (typeUpTo loading.items.length) type :=
    fun _ hw' hn => typeUpTo_of_length_le hw' hn
  rw [← typeUpTo_of_length_le hw (Nat.le_succ _), typeUpTo_succ]
  exact agree_record hagree (gives_typeUpTo _) loading hw (Nat.le_succ _)

/-! ### Counts of any size -/

/-- A reader fails where no items are left, and takes one where some are. -/
structure Moves (m : Load α) : Prop where
  stuck : ∀ store, ∃ failure, m ⟨store, []⟩ = .error failure ⟨store, []⟩
  shorter : ∀ loading, loading.store.WellFormed → loading.items ≠ [] →
    (after m loading).items.length < loading.items.length

theorem moves_read {reader : ItemReader α} (h : reader.TakesOne) : Moves (read reader) where
  stuck store := by
    obtain ⟨expected, hnil⟩ := h.nil
    exact ⟨.archive (.unexpectedEnd expected), by simp only [read, hnil]⟩
  shorter loading _ hne := by
    have hpos : 0 < loading.items.length := List.length_pos_iff.mpr hne
    rcases run_read h loading with ⟨a, hrun⟩ | ⟨error, hrun⟩
    · rw [after, hrun, List.length_tail]
      exact Nat.sub_lt hpos Nat.one_pos
    · rw [after, hrun, List.length_tail]
      exact Nat.sub_lt hpos Nat.one_pos

/-- What begins by taking an item takes one. -/
theorem Moves.bind {m : Load α} {f : α → Load β} {P : Store → α → Prop} {Q : Store → β → Prop}
    (hm : Moves m) (hg : Gives m P) (hf : ∀ a, Gives (f a) Q) : Moves (m >>= f) where
  stuck store := by
    obtain ⟨failure, hfail⟩ := hm.stuck store
    exact ⟨failure, by rw [run_bind, hfail]⟩
  shorter loading hw hne := by
    have hlt := hm.shorter loading hw hne
    have hgrows := (hg loading hw).grows
    rw [after] at hlt hgrows
    rw [after, run_bind]
    cases hrun : m loading with
    | error failure next =>
        rw [hrun] at hlt
        exact hlt
    | ok a next =>
        rw [hrun] at hlt hgrows
        exact Nat.lt_of_le_of_lt (hf a next hgrows.wellFormed).suffix.length_le hlt

theorem moves_record {type : Load TypeId} (hg : Gives type Store.Holds) : Moves (record type) :=
  (moves_read takesOne_tag).bind gives_tag (gives_afterTag hg)

theorem moves_type : Moves type where
  stuck store := ⟨_, typeUpTo_nil 0 store⟩
  shorter loading hw hne := by
    rw [after, type_eq hw]
    exact (moves_record gives_type).shorter loading hw hne

theorem moves_baseClass : Moves baseClass :=
  moves_type.bind gives_type fun _ loading hw =>
    (gives_tagged loading hw).bind fun _ a ha _ => (gives_bool a ha.wellFormed).bind fun _ _ hb _ =>
      Harmless.pure (P := fun _ _ => True) hb.wellFormed trivial

theorem moves_member : Moves member :=
  (moves_read takesOne_str).bind gives_str gives_afterName

theorem moves_openBody : Moves openBody :=
  (moves_read takesOne_tag).bind gives_tag gives_afterBodyTag

theorem moves_tables : Moves tables :=
  (moves_read (takesOne_exactTag "decls")).bind (gives_exactTag "decls") fun _ =>
    gives_afterDecls

/-- A count beyond the number of items left only says that the items will not do. -/
theorem times_of_length_lt {element : Load α} {P : Store → α → Prop} (hm : Moves element)
    (hg : Gives element P) {n' : Nat} (hw : loading.store.WellFormed)
    (h : loading.items.length < n) (h' : loading.items.length < n') :
    times element n loading = times element n' loading := by
  induction n generalizing loading n' with
  | zero => exact absurd h (Nat.not_lt_zero _)
  | succ n ih =>
      obtain ⟨n', rfl⟩ := Nat.exists_eq_add_one_of_ne_zero (Nat.ne_zero_of_lt h')
      rw [times, times, run_bind, run_bind]
      have hharmless := hg loading hw
      have hgrows := hharmless.grows
      rw [after] at hgrows
      cases hrun : element loading with
      | error failure next => rfl
      | ok a next =>
          have hne : loading.items ≠ [] := by
            intro hnil
            obtain ⟨failure, hfail⟩ := hm.stuck loading.store
            rw [← hnil] at hfail
            rw [hrun] at hfail
            cases hfail
          -- An element that was read took an item, so the others have fewer left.
          have hlt := hm.shorter loading hw hne
          rw [after_of_ok hrun] at hlt
          rw [hrun] at hgrows
          have hrest : times element n next = times element n' next :=
            ih hgrows.wellFormed (Nat.lt_of_lt_of_le hlt (Nat.le_of_lt_succ h))
              (Nat.lt_of_lt_of_le hlt (Nat.le_of_lt_succ h'))
          dsimp only
          rw [run_bind, run_bind, hrest]

theorem enumerators_of_length_lt {n' : Nat} (h : loading.items.length < n)
    (h' : loading.items.length < n') (draft : EnumDraft) :
    enumerators draft n loading = enumerators draft n' loading := by
  induction n generalizing loading n' draft with
  | zero => exact absurd h (Nat.not_lt_zero _)
  | succ n ih =>
      obtain ⟨n', rfl⟩ := Nat.exists_eq_add_one_of_ne_zero (Nat.ne_zero_of_lt h')
      by_cases hnil : loading.items = []
      · obtain ⟨store, items⟩ := loading
        obtain rfl : items = [] := hnil
        rfl
      · have hlt : loading.items.tail.tail.length < loading.items.length := by
          have hpos : 0 < loading.items.length := List.length_pos_iff.mpr hnil
          rw [List.length_tail, List.length_tail]
          omega
        rw [enumerators, enumerators]
        rcases run_read takesOne_str loading with ⟨name, hrun⟩ | ⟨error, hrun⟩
        · rw [run_bind_of_ok hrun, run_bind_of_ok hrun]
          rcases run_read takesOne_signed { loading with items := loading.items.tail } with
            ⟨value, hrun⟩ | ⟨error, hrun⟩
          · rw [run_bind_of_ok hrun, run_bind_of_ok hrun]
            cases draft.add name value with
            | error error => rfl
            | ok draft =>
                exact ih (Nat.lt_of_lt_of_le hlt (Nat.le_of_lt_succ h))
                  (Nat.lt_of_lt_of_le hlt (Nat.le_of_lt_succ h')) draft
          · rw [run_bind, run_bind, hrun]
        · rw [run_bind, run_bind, hrun]

/-! ### Reading that comes to an end -/

/-- It makes no difference to `repeated` by how much its number goes beyond that of the items. -/
def Bounded (repeated : Nat → Load α) (loading : Loading) : Prop :=
  ∀ n n', loading.items.length < n → loading.items.length < n' →
    repeated n loading = repeated n' loading

/-- Reading goes no deeper and no further than there are items, whatever depth is allowed and
whatever the counts are. -/
structure Halts (loading : Loading) : Prop where
  nested : type loading = record type loading
  depth : ∀ depth, loading.items.length ≤ depth → typeUpTo depth loading = type loading
  types : Bounded (times type) loading
  bases : Bounded (times baseClass) loading
  members : Bounded (times member) loading
  bodies : Bounded (times openBody) loading
  values : ∀ draft, Bounded (enumerators draft) loading

theorem halts (hw : loading.store.WellFormed) : Halts loading where
  nested := type_eq hw
  depth _ := typeUpTo_of_length_le hw
  types _ _ := times_of_length_lt moves_type gives_type hw
  bases _ _ := times_of_length_lt moves_baseClass gives_baseClass hw
  members _ _ := times_of_length_lt moves_member gives_member hw
  bodies _ _ := times_of_length_lt moves_openBody gives_openBody hw
  values draft _ _ h h' := enumerators_of_length_lt h h' draft

end Load

end TypeGraph
