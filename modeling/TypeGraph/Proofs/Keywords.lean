import Mathlib.Data.Finset.Card
import TypeGraph.Proofs.Paths

/-!
Keywords number texts in the order in which they are first met. Main statement: after any requests
for names, wherever these take their texts from, the keyword of a text counts the other texts that
were first met before it, now and later (`Store.numbered_by_first_meeting`).
-/

namespace TypeGraph

/-! ### Requests for names -/

namespace Request

/-- A request for a text or a path, given or read from items. -/
def isNaming : Request → Bool
  | .intern _ | .extend _ _ | .child _ _ | .path _ | .loadKeyword _ | .loadPath _ => true
  | _ => false

/-- The texts that are met in a request for names. -/
def texts : Request → List String
  | .intern text | .child _ text | .loadKeyword (.str text :: _) => [text]
  | .path texts | .loadPath (.key texts :: _) => texts
  | _ => []

theorem countable_of_isNaming {request : Request} (h : request.isNaming = true) :
    request.Countable := by
  cases request with
  | params | enter => cases h
  | _ => trivial

end Request

/-! ### The order in which texts are first met -/

namespace Keyword

variable {met : List String} {text other : String}

/-- The texts that were first met before a text. -/
def metBefore (met : List String) (text : String) : Finset String :=
  {other ∈ met.toFinset | met.idxOf other < met.idxOf text}

/-- The keyword that counts the texts that were first met before a text. -/
def byMeeting (met : List String) (text : String) : Keyword := ⟨(metBefore met text).card⟩

theorem mem_metBefore :
    other ∈ metBefore met text ↔ other ∈ met ∧ met.idxOf other < met.idxOf text := by
  rw [metBefore, Finset.mem_filter, List.mem_toFinset]

theorem metBefore_append (h : text ∈ met) (more : List String) :
    metBefore (met ++ more) text = metBefore met text := by
  ext other
  rw [mem_metBefore, mem_metBefore, List.idxOf_append_of_mem h]
  have hlt := List.idxOf_lt_length_of_mem h
  by_cases hother : other ∈ met
  · simp [List.idxOf_append_of_mem hother, hother]
  · simp only [List.idxOf_append_of_notMem hother, hother, false_and, iff_false]
    omega

/-- What is met afterwards has no part in the number of a text. -/
theorem byMeeting_append (h : text ∈ met) (more : List String) :
    byMeeting (met ++ more) text = byMeeting met text := by
  rw [byMeeting, byMeeting, metBefore_append h]

theorem metBefore_new (h : text ∉ met) : metBefore (met ++ [text]) text = met.toFinset := by
  ext other
  rw [mem_metBefore, List.mem_toFinset, List.idxOf_append_of_notMem h]
  by_cases hother : other ∈ met
  · have hlt := List.idxOf_lt_length_of_mem hother
    simp only [List.idxOf_append_of_mem hother, hother, List.mem_append, true_or, true_and,
      iff_true]
    omega
  · simp only [List.idxOf_append_of_notMem hother, hother, iff_false]
    simp only [List.mem_append, hother, false_or, List.mem_singleton]
    rintro ⟨rfl, hlt⟩
    exact Nat.lt_irrefl _ hlt

theorem byMeeting_lt (ha : text ∈ met) (h : met.idxOf text < met.idxOf other) :
    (byMeeting met text).index < (byMeeting met other).index := by
  change (metBefore met text).card < (metBefore met other).card
  refine Finset.card_lt_card ((Finset.ssubset_iff_of_subset fun first hm => ?_).mpr ⟨text, ?_, ?_⟩)
  · rw [mem_metBefore] at hm ⊢
    exact ⟨hm.1, hm.2.trans h⟩
  · exact mem_metBefore.mpr ⟨ha, h⟩
  · exact fun hm => Nat.lt_irrefl _ (mem_metBefore.mp hm).2

theorem compare_byMeeting (ha : text ∈ met) (hb : other ∈ met) :
    compare (byMeeting met text).index (byMeeting met other).index =
      compare (met.idxOf text) (met.idxOf other) := by
  rcases Nat.lt_trichotomy (met.idxOf text) (met.idxOf other) with h | h | h
  · rw [compare_lt_iff_lt.mpr h, compare_lt_iff_lt.mpr (byMeeting_lt ha h)]
  · have hsame : metBefore met text = metBefore met other := by rw [metBefore, metBefore, h]
    rw [byMeeting, byMeeting, hsame, h, compare_eq_iff_eq.mpr rfl, compare_eq_iff_eq.mpr rfl]
  · rw [compare_gt_iff_gt.mpr h, compare_gt_iff_gt.mpr (byMeeting_lt hb h)]

/-! ### Texts listed as they were first met -/

theorem eraseDups_concat (met : List String) (text : String) :
    (met ++ [text]).eraseDups =
      if text ∈ met then met.eraseDups else met.eraseDups ++ [text] := by
  rw [List.eraseDups_append]
  by_cases hm : text ∈ met
  · simp [hm, List.removeAll]
  · simp [hm, List.removeAll, List.eraseDups_cons]

theorem length_eraseDups (met : List String) : met.eraseDups.length = met.toFinset.card := by
  induction met using List.reverseRecOn with
  | nil => rfl
  | append_singleton met last ih =>
      rw [eraseDups_concat, List.toFinset_append]
      by_cases hlast : last ∈ met
      · simp [hlast, ih]
      · simp [hlast, ih]

theorem idxOf_eraseDups (h : text ∈ met) :
    met.eraseDups.idxOf text = (byMeeting met text).index := by
  induction met using List.reverseRecOn with
  | nil => exact absurd h List.not_mem_nil
  | append_singleton met last ih =>
      rw [eraseDups_concat]
      by_cases htext : text ∈ met
      · rw [byMeeting_append htext, ← ih htext]
        by_cases hlast : last ∈ met
        · rw [if_pos hlast]
        · rw [if_neg hlast, List.idxOf_append_of_mem (List.mem_eraseDups.mpr htext)]
      · obtain rfl : text = last := by simpa [htext] using h
        have hnew : text ∉ met.eraseDups := mt List.mem_eraseDups.mp htext
        rw [if_neg htext, List.idxOf_append_of_notMem hnew, byMeeting, metBefore_new htext,
          length_eraseDups]
        simp

end Keyword

namespace Names

variable {names : Names} {met : List String}

/-- The texts are those that were met, in the order in which each was first met. -/
def Lists (names : Names) (met : List String) : Prop := names.texts.entries = met.eraseDups

theorem Lists.intern (h : names.Lists met) (text : String) :
    (names.intern text).2.Lists (met ++ [text]) := by
  change (names.texts.insert text).entries = _
  rw [Table.entries_insert, h, Keyword.eraseDups_concat]
  simp only [List.mem_eraseDups]

theorem Lists.enter (h : names.Lists met) (segments : List Keyword) :
    (names.enter segments).2.Lists met := h

theorem Lists.pathBelow (texts : List String) :
    ∀ {names : Names} {met : List String} (above : List Keyword), names.Lists met →
      (names.pathBelow above texts).2.Lists (met ++ texts) := by
  induction texts with
  | nil =>
      intro names met above h
      rw [Names.pathBelow, List.append_nil]
      exact h.enter above
  | cons text texts ih =>
      intro names met above h
      rw [Names.pathBelow, List.append_cons]
      exact ih _ ((h.intern text).enter _)

theorem lists_empty : empty.Lists [] := rfl

/-- The keyword of a text that was met counts those that were first met before it. -/
theorem Lists.text (h : names.Lists met) {text : String} (hm : text ∈ met) :
    names.text (.byMeeting met text) = .ok text := by
  have hentry : text ∈ met.eraseDups := List.mem_eraseDups.mpr hm
  have hlt := List.idxOf_lt_length_of_mem hentry
  rw [text_eq_ok, Table.get?, h, ← Keyword.idxOf_eraseDups hm, List.getElem?_eq_getElem hlt,
    List.getElem_idxOf hlt]

theorem Lists.lookup? (h : names.Lists met) (text : String) :
    names.lookup? text = if text ∈ met then some (.byMeeting met text) else none := by
  have hiff : text ∈ names.texts ↔ text ∈ met := by rw [Table.mem_def, h, List.mem_eraseDups]
  rw [Names.lookup?]
  by_cases hm : text ∈ met
  · have hindex : names.texts.indexOf text = (Keyword.byMeeting met text).index :=
      Table.indexOf_of_get? (text_eq_ok.mp (h.text hm))
    rw [if_pos (hiff.mpr hm), if_pos hm, hindex]
  · rw [if_neg (mt hiff.mp hm), if_neg hm]

/-- A keyword with a text that was met is the one of that text. -/
theorem Lists.eq_byMeeting (h : names.Lists met) {keyword : Keyword} {text : String}
    (ht : names.text keyword = .ok text) (hm : text ∈ met) : keyword = .byMeeting met text :=
  keyword_eq_of_text_eq ht (h.text hm)

theorem Lists.segments (h : names.Lists met) {path : PathId} {texts : List String}
    (ht : names.strings path = .ok texts) (hm : ∀ text ∈ texts, text ∈ met) :
    names.segments path = .ok (texts.map (.byMeeting met)) := by
  obtain ⟨segments, hp, htexts⟩ := strings_eq_ok.mp ht
  have hall : (texts.map (Keyword.byMeeting met)).mapM names.text = .ok texts := by
    rw [mapM_eq_ok, List.forall₂_map_left_iff, List.forall₂_same]
    exact fun text hm' => h.text (hm text hm')
  rw [segments_eq_ok, hp, mapM_text_inj htexts hall]

end Names

/-! ### Runs of requests for names -/

namespace Store

theorem lists_extend {store : Store} {met : List String} (h : store.names.Lists met)
    (parent : PathId) (keyword : Keyword) :
    (after (Build.extend parent keyword) store).names.Lists met := by
  rcases Build.after_extend parent keyword store with hsame | ⟨above, _, hafter⟩
  · rwa [hsame]
  · rw [hafter]
    exact h.enter _

/-- One request for names lists the texts that are met in it after those that were met before. -/
theorem lists_effect {store : Store} {met : List String} (h : store.names.Lists met)
    {request : Request} (hr : request.isNaming = true) :
    (request.effect store).names.Lists (met ++ request.texts) := by
  have hnone : store.names.Lists (met ++ []) := by rwa [List.append_nil]
  cases request with
  | intern text => exact h.intern text
  | extend parent keyword => exact lists_extend hnone parent keyword
  | child parent text =>
      let known : Store := { store with names := (store.names.intern text).2 }
      exact lists_extend (show known.names.Lists _ from h.intern text) parent _
  | path texts => exact h.pathBelow texts []
  | loadKeyword items =>
      cases items with
      | nil => exact hnone
      | cons item items =>
          cases item with
          | str text => exact h.intern text
          | _ => exact hnone
  | loadPath items =>
      cases items with
      | nil => exact hnone
      | cons item items =>
          cases item with
          | key texts => exact h.pathBelow texts []
          | _ => exact hnone
  | _ => cases hr

/-- The texts that are met in a run of requests for names. -/
def met (requests : List Request) : List String := requests.flatMap Request.texts

theorem lists_afterAll {store : Store} {before : List String} (h : store.names.Lists before)
    {requests : List Request} (hr : ∀ request ∈ requests, request.isNaming = true) :
    (store.afterAll requests).names.Lists (before ++ met requests) := by
  induction requests generalizing store before with
  | nil => rwa [met, List.flatMap_nil, List.append_nil]
  | cons request requests ih =>
      rw [met, List.flatMap_cons, ← List.append_assoc]
      exact ih (lists_effect h (hr request List.mem_cons_self)) fun other hm =>
        hr other (List.mem_cons_of_mem request hm)

theorem lists_met (target : Target) {requests : List Request}
    (hr : ∀ request ∈ requests, request.isNaming = true) :
    ((Store.new target).afterAll requests).names.Lists (met requests) := by
  have h := lists_afterAll (show (Store.new target).names.Lists [] from Names.lists_empty) hr
  rwa [List.nil_append] at h

/-! ### Keywords that are given -/

/-- After the texts `met`, keywords are given and taken back by the order in which texts were first
met, also by requests that take their texts from a path or from items. -/
structure NumberedBy (store : Store) (met : List String) : Prop where
  listed : store.names.texts.entries = met.eraseDups
  lookup : ∀ text, store.names.lookup? text =
    if text ∈ met then some (.byMeeting met text) else none
  text : ∀ text ∈ met, store.names.text (.byMeeting met text) = .ok text
  order : ∀ a ∈ met, ∀ b ∈ met,
    compare (Keyword.byMeeting met a).index (Keyword.byMeeting met b).index =
      compare (met.idxOf a) (met.idxOf b)
  intern : ∀ text, ∃ new,
    Build.intern text store = .ok (.byMeeting (met ++ [text]) text) new
  child : ∀ parent text, store.Knows parent → ∃ path new,
    Build.child parent text store = .ok path new ∧
      new.names.last path = .ok (some (.byMeeting (met ++ [text]) text))
  path : ∀ texts, ∃ path new, Build.path texts store = .ok path new ∧
    new.names.segments path = .ok (texts.map (.byMeeting (met ++ texts)))
  loadKeyword : ∀ text items, ∃ new, Load.keyword ⟨store, .str text :: items⟩ =
    .ok (.byMeeting (met ++ [text]) text) ⟨new, items⟩
  loadPath : ∀ texts items, ∃ path new, Load.path ⟨store, .key texts :: items⟩ =
      .ok path ⟨new, items⟩ ∧
    new.names.segments path = .ok (texts.map (.byMeeting (met ++ texts)))

theorem WellFormed.numberedBy {store : Store} {met : List String} (hw : store.WellFormed)
    (h : store.names.Lists met) : store.NumberedBy met := by
  have hkeyword (text : String) :
      (store.names.intern text).1 = .byMeeting (met ++ [text]) text :=
    (h.intern text).eq_byMeeting (store.names.text_intern text) (by simp)
  have hsegments (texts : List String) : (store.names.path texts).2.segments
      (store.names.path texts).1 = .ok (texts.map (.byMeeting (met ++ texts))) :=
    (h.pathBelow texts []).segments (Names.path_spec hw.names texts).2
      fun text hm => List.mem_append_right met hm
  constructor
  case listed => exact h
  case lookup => exact h.lookup?
  case text => exact fun text => h.text
  case order => exact fun a ha b hb => Keyword.compare_byMeeting ha hb
  case intern =>
    intro text
    refine ⟨{ store with names := (store.names.intern text).2 }, ?_⟩
    rw [← hkeyword]
    rfl
  case child =>
    rintro parent text ⟨above, hp⟩
    refine ⟨_, _, Build.run_child (Names.segments_eq_ok.mp hp) text, ?_⟩
    rw [Names.last_below (Names.segments?_enter _ _), hkeyword]
  case path => exact fun texts => ⟨_, _, rfl, hsegments texts⟩
  case loadKeyword =>
    intro text items
    refine ⟨{ store with names := (store.names.intern text).2 }, ?_⟩
    rw [← hkeyword]
    rfl
  case loadPath => exact fun texts items => ⟨_, _, rfl, hsegments texts⟩

/-- Keywords number texts in the order in which they are first met. The keyword of a text that was
met is the same every time, and stands for that text for good. -/
theorem numbered_by_first_meeting (target : Target) {requests : List Request}
    (hr : ∀ request ∈ requests, request.isNaming = true) :
    ((Store.new target).afterAll requests).NumberedBy (met requests) ∧
      ∀ later : List Request, (∀ request ∈ later, request.isNaming = true) →
        ∀ text ∈ met requests,
          let last := (Store.new target).afterAll (requests ++ later)
          Keyword.byMeeting (met (requests ++ later)) text = .byMeeting (met requests) text ∧
            last.names.text (.byMeeting (met requests) text) = .ok text ∧
            Build.intern text last = .ok (.byMeeting (met requests) text) last := by
  have hreach : ((Store.new target).afterAll requests).Reachable :=
    (reachable_new target).afterAll fun request hm => Request.countable_of_isNaming (hr request hm)
  refine ⟨hreach.wellFormed.numberedBy (lists_met target hr), fun later hl text hm => ?_⟩
  intro last
  have hlast : last.names.Lists (met (requests ++ later)) := by
    refine lists_met target fun request hm => ?_
    exact (List.mem_append.mp hm).elim (hr request) (hl request)
  have hsplit : met (requests ++ later) = met requests ++ met later := List.flatMap_append
  have hsame : Keyword.byMeeting (met (requests ++ later)) text = .byMeeting (met requests) text :=
    hsplit ▸ Keyword.byMeeting_append hm (met later)
  have htext : last.names.text (.byMeeting (met requests) text) = .ok text := by
    rw [← hsame]
    exact hlast.text (hsplit ▸ List.mem_append_left _ hm)
  refine ⟨hsame, htext, ?_⟩
  change EStateM.Result.ok (last.names.intern text).1
    { last with names := (last.names.intern text).2 } = _
  rw [Names.intern_of_text htext]

/-- Texts of a path that are met again, and one that is first met in an item. -/
theorem numbered_by_first_meeting_again :
    let texts := ["b", "a", "c", "a", "b"]
    let store := (Store.new .wide).afterAll
      [.path ["b", "a"], .loadKeyword [.str "c"], .child ⟨1⟩ "a", .intern "b"]
    let last := (Request.loadPath [.key ["d", "c"]]).effect store
    store.NumberedBy texts ∧ store.names.texts.entries = ["b", "a", "c"] ∧
      Keyword.byMeeting texts "c" = ⟨2⟩ ∧ last.names.text ⟨2⟩ = .ok "c" ∧
      Build.intern "c" last = .ok ⟨2⟩ last := by
  intro texts store last
  obtain ⟨hnow, hlater⟩ := numbered_by_first_meeting .wide (show ∀ request ∈
    ([.path ["b", "a"], .loadKeyword [.str "c"], .child ⟨1⟩ "a", .intern "b"] : List Request),
    request.isNaming = true by simp [Request.isNaming])
  have hnumber : Keyword.byMeeting texts "c" = ⟨2⟩ := by decide +kernel
  obtain ⟨_, htext, hintern⟩ := hlater [.loadPath [.key ["d", "c"]]] (by simp [Request.isNaming])
    "c" (by decide +kernel)
  exact ⟨hnow, hnow.listed.trans (by decide +kernel), hnumber, hnumber ▸ htext, hnumber ▸ hintern⟩

end Store

end TypeGraph
