import RecordFilter.Proofs.Compile.Memberships
import RecordFilter.Proofs.Compile.Settling
import RecordFilter.Proofs.Sql.Conditions

/-! Leaves on translated columns. What counts as true is compared with the text in the language of the context: the
    condition is that of a plain column, read in the language wherever it compares the column with bound values. All else
    is compared with the bare column, as on a plain field, and `true` in the stead of a list is rejected. -/

namespace RecordFilter
namespace Sql

/-- The value in a language of the column that stands on the left of a comparison. -/
def Expr.inLanguage (lang : String) (x : Expr) : Expr := .translated x.source lang

/-- What the value of a translated column in a language binds itself. -/
def languageParams (lang : String) : List Param := if lang = sourceLang then [] else [.text lang]

theorem Expr.params_translated (column : Column) (lang : String) :
    (Expr.translated column lang).fragment.params = languageParams lang := by
  rw [fragment, languageParams]
  split <;> rfl

/-- The condition with the value in a language in every comparison with bound values. Tests of null stay with the bare
    column. -/
def Cond.inLanguage (lang : String) : Cond → Cond
  | .compare left op right unaccent => .compare (left.inLanguage lang) op right unaccent
  | .member left positive (.params ps) => .member (left.inLanguage lang) positive (.params ps)
  | .group c => .group (c.inLanguage lang)
  | .and a b => .and (a.inLanguage lang) (b.inLanguage lang)
  | .or a b => .or (a.inLanguage lang) (b.inLanguage lang)
  | .not c => .not (c.inLanguage lang)
  | .conj a b => .conj (a.inLanguage lang) (b.inLanguage lang)
  | c => c

end Sql

namespace Compile
open Sql

/-! ### Conditions in a language -/

theorem Wanted.condition_inLanguage (w : Wanted) (column : Column) (positive : Bool) (lang : String) :
    (w.condition (.column column) column positive).inLanguage lang =
      w.condition (.translated column lang) column positive := by
  obtain ⟨params, unset⟩ := w
  cases params <;> cases positive <;> cases unset <;> rfl

theorem comparisonWith_inLanguage (op : Operator) (column : Column) (param : Param) (unaccent : Bool) (lang : String) :
    (comparisonWith op column param unaccent).inLanguage lang =
      let base := Cond.group (.compare (.translated column lang) op param (op.isPattern && unaccent))
      if op.isNegative then .or base (.isNull column) else base := by
  cases op <;> rfl

/-- In a language, the condition binds the language and then what it binds by itself; or neither binds anything. -/
def BindsLanguage (lang : String) (c : Cond) : Prop :=
  (c.inLanguage lang).fragment.params =
    if c.fragment.params = [] then [] else languageParams lang ++ c.fragment.params

section
variable (column : Column) (lang : String)

theorem bindsLanguage_condition (w : Wanted) (positive : Bool) :
    BindsLanguage lang (w.condition (.column column) column positive) := by
  rw [BindsLanguage, w.condition_inLanguage, w.params_condition, w.params_condition_of_left, Expr.params_translated]

theorem bindsLanguage_comparisonWith (op : Operator) (param : Param) (unaccent : Bool) :
    BindsLanguage lang (comparisonWith op column param unaccent) := by
  rw [BindsLanguage, comparisonWith_inLanguage, comparisonWith]
  dsimp only
  cases op.isNegative <;>
    simp [Cond.fragment, Fragment.or, Fragment.join, Fragment.param, Fragment.params_unaccented, Fragment.params_cast,
      Expr.params_translated]

/-- A comparison reads the column, so it is another one in a language. -/
theorem comparison_inLanguage {l : Leaf} {v : Json} {unaccent : Bool} {c : Cond}
    (hc : comparison l column v unaccent = .ok c) : c.inLanguage lang ≠ c ∧ c.fragment.params ≠ [] := by
  have hleft : (if l.op.isPattern then Expr.cast column else .column column).inLanguage lang ≠
      if l.op.isPattern then .cast column else .column column := by
    split <;> exact nofun
  unfold comparison at hc
  dsimp only at hc
  split at hc
  · cases hc
  · split at hc <;> cases hc <;>
      simp [Cond.inLanguage, Cond.fragment, Fragment.or, Fragment.join, Fragment.param, Fragment.params_unaccented,
        hleft]

end

/-! ### Leaves -/

/-- A leaf that compares a stored, translated text with a value. -/
structure OnTranslatedText (m : Model) (l : Leaf) (v : Json) : Prop where
  field : ∃ f, m.field? l.left = some f ∧ f.store ∧ f.translate ∧ f.type.isTranslatable
  undotted : l.path.2 = none
  value : l.right = .value v
  ne_eqIfSet : l.op ≠ .eqIfSet
  not_hierarchy : l.op.isHierarchy = false

variable {s : Setting} {build : QueryBuilder} {l : Leaf} {p : Place} {ctx : Context} {v : Json} {c c' : Cond}

/-- The leaf puts `true` in the stead of a list. -/
def AsksIfSet (l : Leaf) (v : Json) : Prop := (l.op = .within ∨ l.op = .notIn) ∧ v = .bool true

namespace OnTranslatedText

theorem classify (h : OnTranslatedText p.model l v) (r : Registry) : classify r p.model l = .ok .translatable := by
  obtain ⟨f, hf, hstore, htranslate, htext⟩ := h.field
  have hresolve : r.resolve? p.model l.path.1 = some (.local f) := by
    rw [Leaf.path_eq_of_none h.undotted, Registry.resolve?, hf]
  have hkind : classifyField r f = .ok .translatable := by
    unfold classifyField
    rw [hstore, htranslate]
    cases htype : f.type <;> first | rfl | (rw [htype] at htext; cases htext)
  unfold Compile.classify
  dsimp only
  rw [hresolve, h.undotted, h.not_hierarchy, Bool.and_false]
  exact hkind

/-- Texts are no booleans, so the plain translator handles `true` and `false` as it does on any column. -/
theorem plainCondition_eq (h : OnTranslatedText p.model l v) :
    plainCondition l p ctx = literalLeaf l (p.column l.left) v false ctx.unaccent := by
  obtain ⟨f, hf, -, -, htext⟩ := h.field
  have hbool : f.type ≠ .boolean := by
    intro h
    rw [h] at htext
    cases htext
  simp [plainCondition, hf, h.value, hbool]

theorem plainCondition_member (h : OnTranslatedText p.model l v) (hop : l.op = .within ∨ l.op = .notIn) :
    plainCondition l p ctx = inValues l (p.column l.left) v false := by
  rw [h.plainCondition_eq, literalLeaf]
  rcases hop with hop | hop <;> rw [hop]

/-- A single value that is unset is looked for as null, and any other one is compared. -/
theorem plainCondition_single (h : OnTranslatedText p.model l v) (hop : ¬(l.op = .within ∨ l.op = .notIn)) :
    v.isUnset ∧ (plainCondition l p ctx = .ok (.group (.isNull (p.column l.left))) ∨
        plainCondition l p ctx = .ok (.group (.notNull (p.column l.left)))) ∨
      plainCondition l p ctx = comparison l (p.column l.left) v ctx.unaccent := by
  have hset := h.ne_eqIfSet
  have hlevel := h.not_hierarchy
  rw [h.plainCondition_eq, literalLeaf]
  cases hunset : v.isUnset <;> cases hlop : l.op <;> simp_all [equality, Operator.isHierarchy]

theorem plainCondition_truthy (h : OnTranslatedText p.model l v) (hv : v.isTruthy)
    (hop : ¬(l.op = .within ∨ l.op = .notIn)) :
    plainCondition l p ctx = comparison l (p.column l.left) v ctx.unaccent := by
  refine (h.plainCondition_single hop).resolve_left fun hunset => ?_
  rw [unset_eq_false_of_truthy hv] at hunset
  cases hunset.1

/-- Both translators make the same of a value that counts as true, one on the column and the other in the language. Only
    the plain one knows `true` in the stead of a list. -/
theorem translated_iff (h : OnTranslatedText p.model l v) (hv : v.isTruthy) :
    translatedCondition l p ctx = .ok c' ↔
      ∃ c, plainCondition l p ctx = .ok c ∧ ¬AsksIfSet l v ∧ c' = c.inLanguage ctx.lang := by
  unfold translatedCondition
  rw [h.value]
  dsimp only
  by_cases hop : l.op = .within ∨ l.op = .notIn
  · -- Both gather the same values from a list, and neither takes anything else but `true`.
    rw [if_pos hop, h.plainCondition_member hop, AsksIfSet]
    cases v with
    | arr items =>
      dsimp only [inValues]
      cases Wanted.ofItems? false items with
      | none => simp
      | some w =>
        dsimp only
        rw [← w.condition_inLanguage]
        simp [eq_comm]
    | bool b =>
      cases b
      · cases hv
      · simp [hop]
    | _ => simp [inValues]
  · -- The plain translator goes by the value when it adds the test of null, but the value counts as true.
    rw [if_neg hop, h.plainCondition_truthy hv hop]
    have hnever : ¬AsksIfSet l v := fun hasks => hop hasks.1
    cases hparam : (if l.op.isContains then some (containsPattern v) else Param.ofJson? v) with
    | none => simp [comparison, hparam]
    | some param =>
      dsimp only
      rw [comparison_truthy hv hparam, ← comparisonWith_inLanguage l.op _ param ctx.unaccent ctx.lang]
      simp [hnever, eq_comm]

theorem bindsLanguage (h : OnTranslatedText p.model l v) (hv : v.isTruthy) (hc : plainCondition l p ctx = .ok c) :
    BindsLanguage ctx.lang c := by
  by_cases hop : l.op = .within ∨ l.op = .notIn
  · rw [h.plainCondition_member hop] at hc
    unfold inValues at hc
    dsimp only at hc
    split at hc
    · cases hc
      split <;> rfl
    · split at hc <;> cases hc
      exact bindsLanguage_condition _ _ _ _
    · cases hc
  · rw [h.plainCondition_truthy hv hop] at hc
    cases hparam : (if l.op.isContains then some (containsPattern v) else Param.ofJson? v) with
    | none => simp [comparison, hparam] at hc
    | some param =>
      rw [comparison_truthy hv hparam] at hc
      cases hc
      exact bindsLanguage_comparisonWith _ _ _ _ _

/-- A value that counts as false is either not bound, or compared with the bare column. -/
theorem inLanguage_eq_iff (h : OnTranslatedText p.model l v) (hv : v.isTruthy = false)
    (hc : plainCondition l p ctx = .ok c) (lang : String) : c.inLanguage lang = c ↔ c.fragment.params = [] := by
  by_cases hop : l.op = .within ∨ l.op = .notIn
  · rw [h.plainCondition_member hop] at hc
    unfold inValues at hc
    dsimp only at hc
    split at hc
    · cases hc
      split <;> exact iff_of_true rfl rfl
    · -- The empty list asks for nothing.
      rename_i items
      obtain rfl : items = [] := by simpa [Json.isTruthy] using hv
      cases hc
      cases decide (l.op = .within) <;> exact iff_of_true rfl rfl
    · cases hc
  · rcases h.plainCondition_single hop with ⟨-, hnull | hnull⟩ | hcompared
    · cases hnull.symm.trans hc
      exact iff_of_true rfl rfl
    · cases hnull.symm.trans hc
      exact iff_of_true rfl rfl
    · obtain ⟨hlang, hparams⟩ := comparison_inLanguage _ lang (hcompared.symm.trans hc)
      exact iff_of_false hlang hparams

/-- On a plain column, `true` in the stead of a list asks whether the column is set. -/
theorem plainCondition_ifSet (h : OnTranslatedText p.model l v) (hasks : AsksIfSet l v) :
    ∃ c, plainCondition l p ctx = .ok c := by
  obtain ⟨hop, rfl⟩ := hasks
  exact ⟨_, h.plainCondition_member hop⟩

end OnTranslatedText

/-! ### Compilations -/

/-- A leaf that is decided at once compiles where it has a condition, and adds it. -/
theorem compileWith_leaf_iff {E : Except Error Cond} (hok : ∀ c, E = .ok c → (reduce s build l p).Yields (.emit c))
    (herror : ∀ e, E = .error e → ∀ t, (reduce s build l p).Stops t (.error e) t) {model : String}
    (hm : s.registry.model model = .ok p.model) {q : Query} (hq : q.tableAlias = p.tableAlias) (fuel : Nat) (t : Trace)
    (q' : Query) :
    (∃ t', (Compiler.compileWith s build (fuel + 1) model [.leaf l] q).run t = ((.ok (), q'), t')) ↔
      ∃ c, E = .ok c ∧ q' = q.addCondition c := by
  cases E with
  | ok c =>
    obtain ⟨t', h⟩ := (settles_emit (hok c rfl)).compileWith (Nat.le_add_left 1 fuel) hm hq t
    rw [h]
    constructor
    · rintro ⟨_, heq⟩
      cases heq
      exact ⟨c, rfl, rfl⟩
    · rintro ⟨_, heq, rfl⟩
      cases heq
      exact ⟨t', rfl⟩
  | error e =>
    have hon : (Compiler.compileOn s build (fuel + 1) p [.leaf l] q).run t = ((.error (.error e), q), t) := by
      refine (Machine.outcome_leaf fuel l p [] [] q t).trans ?_
      rw [herror e rfl t]
    have hwith := compileWith_run s build hm (fuel + 1) [.leaf l] q t
    rw [hq, hon] at hwith
    rw [hwith]
    constructor
    · rintro ⟨_, heq⟩
      cases heq
    · rintro ⟨_, heq, -⟩
      cases heq

theorem emitLeaf_stops {e : Error} (hc : plainCondition l p s.context = .error e) (t : Trace) :
    (emitLeaf s l p).Stops t (.error e) t := by
  unfold emitLeaf
  rw [hc]
  rfl

namespace OnTranslatedText

/-- A leaf on a translated column is decided at once: in the language, if its value counts as true. -/
theorem reduce_eq (h : OnTranslatedText p.model l v) :
    reduce s build l p =
      if v.isTruthy then (do return .emit (← Run.ofExcept (translatedCondition l p s.context))) else emitLeaf s l p := by
  unfold reduce
  rw [if_neg h.ne_eqIfSet, h.classify]
  show (if l.right.isTruthy then _ else _) = _
  rw [h.value]
  rfl

theorem compileWith_iff (h : OnTranslatedText p.model l v) {model : String} (hm : s.registry.model model = .ok p.model)
    {q : Query} (hq : q.tableAlias = p.tableAlias) (fuel : Nat) (t : Trace) (q' : Query) :
    (∃ t', (Compiler.compileWith s build (fuel + 1) model [.leaf l] q).run t = ((.ok (), q'), t')) ↔
      ∃ c, plainCondition l p s.context = .ok c ∧ ¬AsksIfSet l v ∧
        q' = q.addCondition (if v.isTruthy then c.inLanguage s.context.lang else c) := by
  cases hv : v.isTruthy with
  | true =>
    have hreduce : reduce s build l p = (do return .emit (← Run.ofExcept (translatedCondition l p s.context))) := by
      rw [h.reduce_eq, if_pos hv]
    refine (compileWith_leaf_iff (E := translatedCondition l p s.context) (fun c hc => ?_) (fun e hc t => ?_) hm hq fuel t
      q').trans ?_
    · rw [hreduce]
      exact .bind (.ofExcept hc) (.pure _)
    · rw [hreduce, hc]
      rfl
    · constructor
      · rintro ⟨c', hc', rfl⟩
        obtain ⟨c, hc, hlist, rfl⟩ := (h.translated_iff hv).mp hc'
        exact ⟨c, hc, hlist, rfl⟩
      · rintro ⟨c, hc, hlist, rfl⟩
        exact ⟨_, (h.translated_iff hv).mpr ⟨c, hc, hlist, rfl⟩, rfl⟩
  | false =>
    have hreduce : reduce s build l p = emitLeaf s l p := by
      rw [h.reduce_eq, if_neg (by rw [hv]; exact Bool.false_ne_true)]
    have hlist : ¬AsksIfSet l v := by
      rintro ⟨-, rfl⟩
      cases hv
    refine (compileWith_leaf_iff (E := plainCondition l p s.context) (fun c hc => ?_) (fun e hc t => ?_) hm hq fuel t
      q').trans ?_
    · exact hreduce ▸ emitLeaf_yields hc
    · exact hreduce ▸ emitLeaf_stops hc t
    · simp [hlist]

end OnTranslatedText

/-- A leaf that compares a translated text with a value compiles where it has a condition on a plain column, unless it
    puts `true` in the stead of a list, which a plain column allows. The condition is the one of the plain column: in the
    language of the context, which is bound first, if the value counts as true, and else as it is. So a value that counts
    as false and is bound is compared with the bare column. -/
theorem compile_translated (c : Compiler) {model : String} {m : Model} (hm : c.registry.model model = .ok m) {l : Leaf}
    {v : Json} (h : OnTranslatedText m l v) (fuel : Nat) (q : Query) (t : Trace) :
    (∀ q', (∃ t', (c.compile (fuel + 1) model [.leaf l] q).run t = ((.ok (), q'), t')) ↔
        ∃ cond, plainCondition l ⟨m, q.tableAlias⟩ c.context = .ok cond ∧ ¬AsksIfSet l v ∧
          q' = q.addCondition (if v.isTruthy then cond.inLanguage c.context.lang else cond)) ∧
      (AsksIfSet l v → ∃ cond, plainCondition l ⟨m, q.tableAlias⟩ c.context = .ok cond) ∧
      ∀ cond, plainCondition l ⟨m, q.tableAlias⟩ c.context = .ok cond →
        (v.isTruthy → BindsLanguage c.context.lang cond) ∧
          (v.isTruthy = false → (cond.inLanguage c.context.lang = cond ↔ cond.fragment.params = [])) := by
  have h' : OnTranslatedText (Place.mk m q.tableAlias).model l v := h
  exact ⟨h'.compileWith_iff hm rfl fuel t, h'.plainCondition_ifSet, fun cond hc =>
    ⟨fun hv => h'.bindsLanguage hv hc, fun hv => h'.inLanguage_eq_iff hv hc _⟩⟩

/-! ### A compiler of books -/

/-- A model of books with translated titles. -/
def bookModel : Model := (Model.ofTable "book" "book").withField { name := "title", type := .char, translate := true }

/-- A compiler for French readers of books. -/
def bookCompiler : Compiler where
  registry := { models := Keyed.empty.insert "book" bookModel }
  context := { taskCompiler.context with lang := "fr_FR" }

theorem onTranslatedText_title {op : Operator} {v : Json} (hop : op ≠ .eqIfSet) (hlevel : op.isHierarchy = false) :
    OnTranslatedText bookModel ⟨"title", op, .value v⟩ v where
  field := ⟨_, rfl, rfl, rfl, rfl⟩
  undotted := by
    have hpath : (Leaf.mk "title" op (.value v)).path = (Leaf.mk "title" .eq (.value .null)).path := rfl
    rw [hpath]
    decide +kernel
  value := rfl
  ne_eqIfSet := hop
  not_hierarchy := hlevel

/-- Books with a title that is not called so in French, or else in English. -/
theorem compile_translated_books :
    let l : Leaf := ⟨"title", .notIn, .value (.arr [.str "Candide", .bool false])⟩
    let found : Cond := .and (.group (.member (.translated ⟨"book", "title"⟩ "fr_FR") false (.params [.text "Candide"])))
      (.notNull ⟨"book", "title"⟩)
    bookCompiler.registry.model "book" = .ok bookModel ∧
      OnTranslatedText bookModel l (.arr [.str "Candide", .bool false]) ∧
      (∃ t, (bookCompiler.compile 1 "book" [.leaf l] (.ofTable "book")).run {} =
        ((.ok (), (Query.ofTable "book").addCondition found), t)) ∧
      found.fragment.params = [.text "fr_FR", .text "Candide"] := by
  intro l found
  have hm : bookCompiler.registry.model "book" = .ok bookModel := rfl
  have htitle : OnTranslatedText bookModel l (.arr [.str "Candide", .bool false]) := onTranslatedText_title nofun rfl
  obtain ⟨hcompile, -, hbinds⟩ := compile_translated bookCompiler hm htitle 0 (.ofTable "book") {}
  exact ⟨hm, htitle, (hcompile _).mpr ⟨_, rfl, nofun, rfl⟩, ((hbinds _ rfl).1 rfl).trans rfl⟩

/-- Whether a title is set cannot be asked with `in`, as on a plain column, and the empty title is compared with the
    column that holds the titles of all languages. -/
theorem translated_unlike_plain :
    let p : Place := ⟨bookModel, "book"⟩
    let isSet : Leaf := ⟨"title", .within, .value (.bool true)⟩
    let isEmpty : Leaf := ⟨"title", .eq, .value (.str "")⟩
    OnTranslatedText bookModel isSet (.bool true) ∧ OnTranslatedText bookModel isEmpty (.str "") ∧
      plainCondition isSet p bookCompiler.context = .ok (.group (.notNull ⟨"book", "title"⟩)) ∧
      (∃ e t, (bookCompiler.compile 9 "book" [.leaf isSet] (.ofTable "book")).run {} =
        ((.error (.error e), .ofTable "book"), t)) ∧
      ∃ cond q t, plainCondition isEmpty p bookCompiler.context = .ok cond ∧
        (bookCompiler.compile 9 "book" [.leaf isEmpty] (.ofTable "book")).run {} = ((.ok (), q), t) ∧
        q.conditions = [cond] ∧ cond.fragment.params = [.text ""] ∧
        (cond.inLanguage "fr_FR").fragment.params = [.text "fr_FR", .text ""] :=
  ⟨onTranslatedText_title nofun rfl, onTranslatedText_title nofun rfl, rfl, ⟨_, _, rfl⟩, _, _, _, rfl, rfl, rfl, rfl, rfl⟩

end Compile
end RecordFilter
