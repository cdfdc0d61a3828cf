import TypeGraph.Tree.Signature

/-!
The pieces of a signature as letters, and where each of them ends. Main statements: two pieces of
one sort that are followed by anything are equal if the letters are (`splits_segments`,
`splits_extent`, `splits_list`), and so are qualifiers before a closing parenthesis
(`splits_qual`).
-/

namespace TypeGraph.Signature

/-- Letters of one sort up to the first letter of another sort. -/
theorem split_at {p : Char → Prop} {a b r s : List Char} {x y : Char} (ha : ∀ c ∈ a, p c)
    (hb : ∀ c ∈ b, p c) (hx : ¬p x) (hy : ¬p y) (h : a ++ x :: r = b ++ y :: s) :
    a = b ∧ x = y ∧ r = s := by
  induction a generalizing b with
  | nil =>
      cases b with
      | nil => simpa using h
      | cons c b =>
          obtain ⟨rfl, _⟩ : x = c ∧ r = b ++ y :: s := by simpa using h
          exact absurd (hb x List.mem_cons_self) hx
  | cons c a ih =>
      cases b with
      | nil =>
          obtain ⟨rfl, _⟩ : c = y ∧ a ++ x :: r = s := by simpa using h
          exact absurd (ha c List.mem_cons_self) hy
      | cons d b =>
          obtain ⟨rfl, hrest⟩ : c = d ∧ a ++ x :: r = b ++ y :: s := by simpa using h
          obtain ⟨rfl, hxy, hrs⟩ := ih (fun c hc => ha c (List.mem_cons_of_mem _ hc))
            (fun c hc => hb c (List.mem_cons_of_mem _ hc)) hrest
          exact ⟨rfl, hxy, hrs⟩

/-! ### Paths -/

/-- A segment of a path that cannot be taken for the end of the segment or the path. -/
def PlainText (text : String) : Prop := ∀ c ∈ text.toList, c ≠ ':' ∧ c ≠ '\x7d'

instance (text : String) : Decidable (PlainText text) :=
  List.decidableBAll (fun c => c ≠ ':' ∧ c ≠ '\x7d') text.toList

/-- The segments of a path, each after two colons. -/
def segmentChars (texts : List String) : List Char :=
  texts.flatMap fun text => ':' :: ':' :: text.toList

theorem toList_segments (texts : List String) :
    (segments texts).toList = '\x7b' :: segmentChars texts ++ ['\x7d'] := by
  simp [segments, segmentChars, List.flatMap_map]

/-- After a segment comes a colon or the end of the path. -/
theorem segmentChars_head (texts : List String) (r : List Char) :
    ∃ x rest, segmentChars texts ++ '\x7d' :: r = x :: rest ∧ (x = ':' ∨ x = '\x7d') := by
  cases texts with
  | nil => exact ⟨_, _, rfl, Or.inr rfl⟩
  | cons text texts => exact ⟨_, _, rfl, Or.inl rfl⟩

theorem splits_segments {a b : List String} (ha : ∀ text ∈ a, PlainText text)
    (hb : ∀ text ∈ b, PlainText text) {r s : List Char}
    (h : segmentChars a ++ '\x7d' :: r = segmentChars b ++ '\x7d' :: s) : a = b ∧ r = s := by
  induction a generalizing b with
  | nil =>
      cases b with
      | nil => simpa [segmentChars] using h
      | cons text b => simp [segmentChars] at h
  | cons text a ih =>
      cases b with
      | nil => simp [segmentChars] at h
      | cons text' b =>
          have h : text.toList ++ (segmentChars a ++ '\x7d' :: r) =
              text'.toList ++ (segmentChars b ++ '\x7d' :: s) := by
            simpa [segmentChars] using h
          obtain ⟨x, rest, hx, hxs⟩ := segmentChars_head a r
          obtain ⟨y, rest', hy, hys⟩ := segmentChars_head b s
          rw [hx, hy] at h
          have hstop : ∀ {c}, (c = ':' ∨ c = '\x7d') → ¬(c ≠ ':' ∧ c ≠ '\x7d') := by
            rintro c (rfl | rfl) ⟨h₁, h₂⟩
            · exact h₁ rfl
            · exact h₂ rfl
          obtain ⟨htext, rfl, rfl⟩ := split_at (ha text List.mem_cons_self)
            (hb text' List.mem_cons_self) (hstop hxs) (hstop hys) h
          obtain ⟨rfl, hrs⟩ := ih (fun t ht => ha t (List.mem_cons_of_mem _ ht))
            (fun t ht => hb t (List.mem_cons_of_mem _ ht)) (hx.trans hy.symm)
          exact ⟨by rw [String.toList_inj.mp htext], hrs⟩

/-! ### Tags -/

/-- No tag contains a letter that may follow one. -/
structure PlainTags (α : Type) [Tagged α] : Prop where
  plain : ∀ a : α, ∀ c ∈ (Tagged.tag a).toList, c ≠ '>' ∧ c ≠ '\x7b'

theorem plainTags_of_all {α : Type} [Tagged α]
    (h : ∀ a ∈ Tagged.all (α := α), (Tagged.tag a).toList.all fun c => c != '>' && c != '\x7b') :
    PlainTags α := by
  refine ⟨fun a c hc => ?_⟩
  simpa using List.all_eq_true.mp (h a (Tagged.mem_all a)) c hc

theorem plainTags_builtin : PlainTags Builtin := plainTags_of_all (by decide +kernel)

theorem plainTags_convention : PlainTags Convention := plainTags_of_all (by decide +kernel)

theorem plainTags_storage : PlainTags Storage := plainTags_of_all (by decide +kernel)

theorem splits_tag {α : Type} [Tagged α] (hp : PlainTags α) {a b : α} {x y : Char}
    {r s : List Char} (hx : x = '>' ∨ x = '\x7b') (hy : y = '>' ∨ y = '\x7b')
    (h : (Tagged.tag a).toList ++ x :: r = (Tagged.tag b).toList ++ y :: s) :
    a = b ∧ x = y ∧ r = s := by
  have hstop : ∀ {c}, (c = '>' ∨ c = '\x7b') → ¬(c ≠ '>' ∧ c ≠ '\x7b') := by
    rintro c (rfl | rfl) ⟨h₁, h₂⟩
    · exact h₁ rfl
    · exact h₂ rfl
  obtain ⟨htag, hrest⟩ := split_at (hp.plain a) (hp.plain b) (hstop hx) (hstop hy) h
  exact ⟨Tagged.tag_injective (String.toList_inj.mp htag), hrest⟩

/-! ### Numbers -/

/-- The decimal digits of a number. -/
def digits (n : Nat) : List Char := Nat.toDigits 10 n

theorem isDigit_of_mem_digits {n : Nat} {c : Char} (h : c ∈ digits n) : c.isDigit = true :=
  Nat.isDigit_of_mem_toDigits (by decide) (by decide) h

theorem digits_inj {m n : Nat} (h : digits m = digits n) : m = n := by
  have h' := congrArg (Nat.ofDigitChars 10 · 0) h
  simpa [digits, Nat.ofDigitChars_ten_toDigits] using h'

theorem toList_bracket_word (n : UInt32) :
    (bracket (toString n)).toList = '[' :: digits n.toNat ++ [']'] := by
  have h : (toString n).toList = digits n.toNat := Nat.toList_repr
  simp [bracket, h]

theorem splits_word {a b : UInt32} {r s : List Char}
    (h : digits a.toNat ++ ']' :: r = digits b.toNat ++ ']' :: s) : a = b ∧ r = s := by
  obtain ⟨hd, _, hrs⟩ := split_at (fun c hc => isDigit_of_mem_digits hc)
    (fun c hc => isDigit_of_mem_digits hc) (by decide) (by decide) h
  exact ⟨UInt32.toNat_inj.mp (digits_inj hd), hrs⟩

/-- The extent of an array between its brackets. -/
def extentBody : Extent → List Char
  | .fixed count => digits count.toNat
  | .incomplete => []
  | .variable expr => '*' :: digits expr.index.toNat
  | .unspecified => ['*']

theorem toList_extent (count : Extent) :
    (extent count).toList = '[' :: extentBody count ++ [']'] := by
  rcases count with count | _ | expr | _
  · have h : (toString count).toList = digits count.toNat := Nat.toList_repr
    simp [extent, bracket, extentBody, h]
  · rfl
  · have h : (toString expr.index).toList = digits expr.index.toNat := Nat.toList_repr
    simp [extent, bracket, extentBody, h]
  · rfl

theorem ne_bracket_of_mem_extentBody {count : Extent} : ∀ c ∈ extentBody count, c ≠ ']' := by
  have hdigits : ∀ {n : Nat} {c : Char}, c ∈ digits n → c ≠ ']' := by
    rintro n c hc rfl
    exact absurd (isDigit_of_mem_digits hc) (by decide)
  rcases count with count | _ | expr | _
  · exact fun c hc => hdigits hc
  · simp [extentBody]
  · intro c hc
    rcases List.mem_cons.mp hc with rfl | hc
    · decide
    · exact hdigits hc
  · simp [extentBody]

theorem extentBody_inj {a b : Extent} (h : extentBody a = extentBody b) : a = b := by
  -- A number of elements is written with at least one digit, and the star is no digit.
  have hne : ∀ n, digits n ≠ [] := fun n => Nat.toDigits_ne_nil
  have hstar : ∀ {n rest}, digits n ≠ '*' :: rest := by
    intro n rest h
    have hc : '*' ∈ digits n := h ▸ List.mem_cons_self
    exact absurd (isDigit_of_mem_digits hc) (by decide)
  rcases a with a | _ | ⟨⟨a⟩⟩ | _ <;> rcases b with b | _ | ⟨⟨b⟩⟩ | _ <;>
    simp only [extentBody, List.cons.injEq, true_and, reduceCtorEq] at h ⊢
  · rw [UInt64.toNat_inj.mp (digits_inj h)]
  · exact absurd h (hne _)
  · exact absurd h hstar
  · exact absurd h hstar
  · exact absurd h.symm (hne _)
  · exact absurd h.symm hstar
  · rw [UInt32.toNat_inj.mp (digits_inj h)]
  · exact absurd h (hne _)
  · exact absurd h.symm hstar
  · exact absurd h.symm (hne _)

theorem splits_extent {a b : Extent} {r s : List Char}
    (h : extentBody a ++ ']' :: r = extentBody b ++ ']' :: s) : a = b ∧ r = s := by
  obtain ⟨hbody, _, hrs⟩ := split_at (p := (· ≠ ']')) ne_bracket_of_mem_extentBody
    ne_bracket_of_mem_extentBody (by simp) (by simp) h
  exact ⟨extentBody_inj hbody, hrs⟩

/-! ### Lists of types -/

section Lists

variable {α : Type} {f : α → List Char}

/-- The elements of a list after the first one, and the sign that it is open. -/
def restChars (f : α → List Char) (list : List α) (isOpen : Bool) : List Char :=
  list.flatMap (fun a => ',' :: '(' :: f a ++ [')']) ++ if isOpen then [',', '.', '.', '.'] else []

/-- A list between its parentheses. -/
def listChars (f : α → List Char) (isOpen : Bool) : List α → List Char
  | [] => if isOpen then ['.', '.', '.'] else []
  | a :: list => '(' :: f a ++ ')' :: restChars f list isOpen

theorem restChars_cons (f : α → List Char) (a : α) (list : List α) (isOpen : Bool) :
    restChars f (a :: list) isOpen = ',' :: listChars f isOpen (a :: list) := by
  simp [restChars, listChars]

theorem intercalate_eq_listChars (f : α → List Char) (list : List α) (isOpen : Bool) :
    [','].intercalate (list.map (fun a => '(' :: f a ++ [')']) ++
      if isOpen then [['.', '.', '.']] else []) = listChars f isOpen list := by
  induction list with
  | nil => cases isOpen <;> rfl
  | cons a list ih =>
      cases list with
      | nil => cases isOpen <;> simp [List.intercalate, listChars, restChars]
      | cons b list =>
          have hstep : ∀ (x y : List Char) (rest : List (List Char)),
              [','].intercalate (x :: y :: rest) = x ++ ',' :: [','].intercalate (y :: rest) := by
            intro x y rest
            simp [List.intercalate]
          simp only [List.map_cons, List.cons_append, hstep] at ih ⊢
          rw [ih]
          simp [listChars, restChars]

/-- After an element comes a comma or the end of the list. -/
theorem splits_rest {a b : List α} {v w : Bool} {r s : List Char}
    (hf : ∀ x ∈ a, ∀ y ∈ b, ∀ r s, f x ++ ')' :: r = f y ++ ')' :: s → x = y ∧ r = s)
    (h : restChars f a v ++ ')' :: r = restChars f b w ++ ')' :: s) : a = b ∧ v = w ∧ r = s := by
  induction a generalizing b with
  | nil =>
      cases b with
      | nil => cases v <;> cases w <;> simp_all [restChars]
      | cons y b => cases v <;> simp [restChars] at h
  | cons x a ih =>
      cases b with
      | nil => cases w <;> simp [restChars] at h
      | cons y b =>
          have h : f x ++ ')' :: (restChars f a v ++ ')' :: r) =
              f y ++ ')' :: (restChars f b w ++ ')' :: s) := by
            simpa [restChars] using h
          obtain ⟨rfl, hrest⟩ := hf x List.mem_cons_self y List.mem_cons_self _ _ h
          obtain ⟨rfl, hvw, hrs⟩ := ih (fun x hx y hy =>
            hf x (List.mem_cons_of_mem _ hx) y (List.mem_cons_of_mem _ hy)) hrest
          exact ⟨rfl, hvw, hrs⟩

theorem splits_list {a b : List α} {v w : Bool} {r s : List Char}
    (hf : ∀ x ∈ a, ∀ y ∈ b, ∀ r s, f x ++ ')' :: r = f y ++ ')' :: s → x = y ∧ r = s)
    (h : listChars f v a ++ ')' :: r = listChars f w b ++ ')' :: s) : a = b ∧ v = w ∧ r = s := by
  cases a with
  | nil =>
      cases b with
      | nil => cases v <;> cases w <;> simp_all [listChars]
      | cons y b => cases v <;> simp [listChars] at h
  | cons x a =>
      cases b with
      | nil => cases w <;> simp [listChars] at h
      | cons y b =>
          refine splits_rest hf ?_
          rw [restChars_cons, restChars_cons, List.cons_append, List.cons_append, h]

end Lists

/-! ### Qualifiers -/

/-- What may follow a type: nothing, or a closing parenthesis. -/
def Ends (rest : List Char) : Prop := rest = [] ∨ ∃ more, rest = ')' :: more

/-- A path, with nothing written for an unknown one. -/
def nameChars : PathName → List Char
  | .ok texts => '{' :: segmentChars texts ++ ['}']
  | .error _ => []

/-- A path whose texts are known and cannot be taken for the end of a segment or the path. -/
def PlainName (name : PathName) : Prop := ∃ texts, name = .ok texts ∧ ∀ text ∈ texts, PlainText text

theorem splits_name {a b : PathName} (ha : PlainName a) (hb : PlainName b) {r s : List Char}
    (h : nameChars a ++ r = nameChars b ++ s) : a = b ∧ r = s := by
  obtain ⟨texts, rfl, ht⟩ := ha
  obtain ⟨texts', rfl, ht'⟩ := hb
  obtain ⟨rfl, hrs⟩ := splits_segments (r := r) (s := s) ht ht' (by simpa [nameChars] using h)
  exact ⟨rfl, hrs⟩

def spaceChars (space : Space PathName) : List Char :=
  if space.isGeneric then []
  else '<' :: space.storage.tag.toList ++ ((space.name.map nameChars).getD [] ++ ['>'])

/-- One letter for a flag. -/
def flagChars (letter : Char) (isSet : Bool) : List Char := if isSet then [letter] else []

def qualChars (qual : Qual PathName) : List Char :=
  spaceChars qual.space ++ (flagChars 'a' qual.isAtomic ++ (flagChars 'c' qual.isConst ++
    (flagChars 'r' qual.isRestrict ++ flagChars 'v' qual.isVolatile)))

theorem splits_flag {letter : Char} {v w : Bool} {r s : List Char} (hr : r.head? ≠ some letter)
    (hs : s.head? ≠ some letter) (h : flagChars letter v ++ r = flagChars letter w ++ s) :
    v = w ∧ r = s := by
  cases v with
  | false =>
      cases w with
      | false => exact ⟨rfl, h⟩
      | true =>
          obtain rfl : r = letter :: s := h
          exact absurd rfl hr
  | true =>
      cases w with
      | false =>
          obtain rfl : letter :: r = s := h
          exact absurd rfl hs
      | true => exact ⟨rfl, by simpa [flagChars] using h⟩

/-- Flags before the end are told apart by their letters. -/
theorem splits_flags {a b c d a' b' c' d' : Bool} {r s : List Char} (hr : Ends r) (hs : Ends s)
    (h : flagChars 'a' a ++ (flagChars 'c' b ++ (flagChars 'r' c ++ (flagChars 'v' d ++ r))) =
      flagChars 'a' a' ++ (flagChars 'c' b' ++ (flagChars 'r' c' ++ (flagChars 'v' d' ++ s)))) :
    a = a' ∧ b = b' ∧ c = c' ∧ d = d' ∧ r = s := by
  have hv : ∀ {d : Bool} {r : List Char}, Ends r → ∀ x, x ≠ 'v' → x ≠ ')' →
      (flagChars 'v' d ++ r).head? ≠ some x := by
    rintro d r (rfl | ⟨more, rfl⟩) x hx hx' <;> cases d <;> simp [flagChars, hx.symm, hx'.symm]
  have hend : ∀ {r : List Char}, Ends r → r.head? ≠ some 'v' := by
    rintro r (rfl | ⟨more, rfl⟩) <;> simp
  have hc : ∀ {c d : Bool} {r : List Char}, Ends r → ∀ x, x ≠ 'r' → x ≠ 'v' → x ≠ ')' →
      (flagChars 'r' c ++ (flagChars 'v' d ++ r)).head? ≠ some x := by
    intro c d r hr x hx hx' hx''
    cases c
    · exact hv hr x hx' hx''
    · simp [flagChars, hx.symm]
  have hb : ∀ {b c d : Bool} {r : List Char}, Ends r →
      (flagChars 'c' b ++ (flagChars 'r' c ++ (flagChars 'v' d ++ r))).head? ≠ some 'a' := by
    intro b c d r hr
    cases b
    · exact hc hr 'a' (by decide) (by decide) (by decide)
    · simp [flagChars]
  obtain ⟨ha, h₁⟩ := splits_flag (hb hr) (hb hs) h
  obtain ⟨hb, h₂⟩ := splits_flag (hc hr 'c' (by decide) (by decide) (by decide))
    (hc hs 'c' (by decide) (by decide) (by decide)) h₁
  obtain ⟨hc, h₃⟩ := splits_flag (hv hr 'r' (by decide) (by decide))
    (hv hs 'r' (by decide) (by decide)) h₂
  obtain ⟨hd, hrs⟩ := splits_flag (hend hr) (hend hs) h₃
  exact ⟨ha, hb, hc, hd, hrs⟩

/-- A space named exactly if it is declarable, its name being plain. -/
def PlainSpace (space : Space PathName) : Prop :=
  space.WellNamed ∧ ∀ name, space.name = some name → PlainName name

/-- The tag of a space and the path after it, if there is one, up to the closing bracket. -/
theorem splits_declared {storage storage' : Storage} {a b : Option PathName}
    (ha : ∀ name, a = some name → PlainName name) (hb : ∀ name, b = some name → PlainName name)
    {r s : List Char}
    (h : storage.tag.toList ++ ((a.map nameChars).getD [] ++ '>' :: r) =
      storage'.tag.toList ++ ((b.map nameChars).getD [] ++ '>' :: s)) :
    Space.mk storage a = ⟨storage', b⟩ ∧ r = s := by
  have hname : ∀ {name : PathName}, PlainName name → ∃ texts, name = .ok texts ∧
      (∀ text ∈ texts, PlainText text) ∧ ∀ rest, nameChars name ++ '>' :: rest =
        '{' :: (segmentChars texts ++ '}' :: '>' :: rest) := by
    rintro _ ⟨texts, rfl, ht⟩
    exact ⟨texts, rfl, ht, fun rest => by simp [nameChars]⟩
  cases a with
  | none =>
      cases b with
      | none =>
          obtain ⟨rfl, _, rfl⟩ := splits_tag plainTags_storage (Or.inl rfl) (Or.inl rfl) h
          exact ⟨rfl, rfl⟩
      | some name =>
          obtain ⟨texts, rfl, _, hrest⟩ := hname (hb name rfl)
          simp only [Option.map_some, Option.getD_some, hrest] at h
          obtain ⟨_, hx, _⟩ := splits_tag plainTags_storage (Or.inl rfl) (Or.inr rfl) h
          exact absurd hx (by decide)
  | some name =>
      obtain ⟨texts, rfl, ht, hrest⟩ := hname (ha name rfl)
      simp only [Option.map_some, Option.getD_some, hrest] at h
      cases b with
      | none =>
          obtain ⟨_, hx, _⟩ := splits_tag plainTags_storage (Or.inr rfl) (Or.inl rfl) h
          exact absurd hx (by decide)
      | some name =>
          obtain ⟨texts', rfl, ht', hrest'⟩ := hname (hb name rfl)
          simp only [Option.map_some, Option.getD_some, hrest'] at h
          obtain ⟨rfl, _, h'⟩ := splits_tag plainTags_storage (Or.inr rfl) (Or.inr rfl) h
          obtain ⟨rfl, hrs⟩ := splits_segments ht ht' h'
          exact ⟨rfl, by simpa using hrs⟩

/-- What follows a space: a flag or the end, but no opening bracket. -/
theorem splits_space {a b : Space PathName} (ha : PlainSpace a) (hb : PlainSpace b)
    {r s : List Char}
    (hr : r.head? ≠ some '<') (hs : s.head? ≠ some '<')
    (h : spaceChars a ++ r = spaceChars b ++ s) : a = b ∧ r = s := by
  obtain ⟨storage, name⟩ := a
  obtain ⟨storage', name'⟩ := b
  have hgen : ∀ {storage : Storage} {name : Option PathName}, PlainSpace ⟨storage, name⟩ →
      (Space.mk storage name).isGeneric = true → storage = .gen ∧ name = none := by
    rintro storage name ⟨hn, _⟩ hg
    obtain rfl : storage = .gen := by simpa [Space.isGeneric] using hg
    have hnone : name.isSome = false := hn
    exact ⟨rfl, by simpa using hnone⟩
  cases hga : (Space.mk storage name).isGeneric with
  | true =>
      obtain ⟨rfl, rfl⟩ := hgen ha hga
      cases hgb : (Space.mk storage' name').isGeneric with
      | true =>
          obtain ⟨rfl, rfl⟩ := hgen hb hgb
          exact ⟨rfl, h⟩
      | false =>
          simp only [spaceChars, hga, hgb, if_true, Bool.false_eq_true, if_false] at h
          exact absurd (by rw [show r = _ from h]; rfl) hr
  | false =>
      cases hgb : (Space.mk storage' name').isGeneric with
      | true =>
          obtain ⟨rfl, rfl⟩ := hgen hb hgb
          simp only [spaceChars, hga, hgb, if_true, Bool.false_eq_true, if_false] at h
          exact absurd (by rw [← show _ = s from h]; rfl) hs
      | false =>
          simp only [spaceChars, hga, hgb, Bool.false_eq_true, if_false, List.cons_append,
            List.append_assoc, List.cons.injEq, true_and, List.nil_append] at h
          exact splits_declared ha.2 hb.2 h

theorem splits_qual {a b : Qual PathName} (ha : PlainSpace a.space) (hb : PlainSpace b.space)
    {r s : List Char} (hr : Ends r) (hs : Ends s) (h : qualChars a ++ r = qualChars b ++ s) :
    a = b ∧ r = s := by
  have hflags : ∀ {a b c d : Bool} {r : List Char}, Ends r →
      (flagChars 'a' a ++ (flagChars 'c' b ++ (flagChars 'r' c ++
        (flagChars 'v' d ++ r)))).head? ≠ some '<' := by
    rintro a b c d r (rfl | ⟨more, rfl⟩) <;> cases a <;> cases b <;> cases c <;> cases d <;>
      simp [flagChars]
  obtain ⟨space, isAtomic, isConst, isRestrict, isVolatile⟩ := a
  obtain ⟨space', isAtomic', isConst', isRestrict', isVolatile'⟩ := b
  simp only [qualChars, List.append_assoc] at h
  obtain ⟨rfl, hrest⟩ := splits_space ha hb (hflags hr) (hflags hs) h
  obtain ⟨rfl, rfl, rfl, rfl, rfl⟩ := splits_flags hr hs hrest
  exact ⟨rfl, rfl⟩

end TypeGraph.Signature
