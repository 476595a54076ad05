import ConfigAudit.Proofs.Evaluation
import ConfigAudit.Proofs.OrderedMaps

/-!
# Evaluation yields well-formed literals

A literal is well formed if none of its numbers is `nan` and no key occurs twice in its objects.
Arithmetic refuses results that are not finite, objects are built by insertion, and steps and loops
only take literals apart, so that the value of an expression is well formed as soon as the numbers
that are written in it are no `nan` (`wellFormed_eval`).
-/

namespace ConfigAudit

open OrderedMap

/-! ### Numbers -/

namespace Double

theorem normalize_ne_nan (negative : Bool) (mantissa : Nat) (exponent : Int) :
    normalize negative mantissa exponent ≠ .nan := by
  unfold normalize
  split_ifs <;> simp

theorem ofRatio_ne_nan (negative : Bool) (num den : Nat) : ofRatio negative num den ≠ .nan := by
  unfold ofRatio
  split_ifs
  · simp
  · dsimp only
    split_ifs
    · simp
    · exact normalize_ne_nan _ _ _

theorem ofInt_ne_nan (n : Int) : ofInt n ≠ .nan := ofRatio_ne_nan _ _ _

theorem neg_ne_nan {x : Double} (h : x ≠ .nan) : x.neg ≠ .nan := by
  cases x with
  | nan => exact absurd rfl h
  | infinite s => simp [neg]
  | finite s m e => simp [neg]

end Double

namespace Number

theorem toDouble_ofInt?_ne_nan {n : Int} {r : Number} (h : ofInt? n = some r) :
    r.toDouble ≠ .nan := by
  unfold ofInt? at h
  split_ifs at h
  cases h
  exact Double.ofInt_ne_nan n

/-- A double that is not finite makes no number. -/
theorem toDouble_ofDouble?_ne_nan {x : Double} {r : Number} (h : ofDouble? x = some r) :
    r.toDouble ≠ .nan := by
  have hreal (hfinite : x.isFinite = true) : (Number.real x).toDouble ≠ .nan := by
    cases x with
    | finite s m e => simp [toDouble]
    | _ => simp [Double.isFinite] at hfinite
  unfold ofDouble? at h
  split_ifs at h with hfinite
  split at h
  · split_ifs at h
    · cases h
      exact Double.ofInt_ne_nan _
    · cases h
      exact hreal hfinite
  · cases h
    exact hreal hfinite

/-- Whole results are refused out of range and double results unless they are finite. -/
theorem toDouble_combine_ne_nan {onWhole : Int → Int → Option Int}
    {onReal : Double → Double → Double} {a b r : Number}
    (h : combine onWhole onReal a b = some r) : r.toDouble ≠ .nan := by
  unfold combine at h
  split at h
  · split_ifs at h
    · obtain ⟨n, -, hn⟩ := Option.bind_eq_some_iff.1 h
      exact toDouble_ofInt?_ne_nan hn
    · exact toDouble_ofDouble?_ne_nan h
  · exact toDouble_ofDouble?_ne_nan h

theorem toDouble_neg_ne_nan {n : Number} (h : n.toDouble ≠ .nan) : n.neg.toDouble ≠ .nan := by
  cases n with
  | whole n =>
    rw [neg]
    split_ifs
    · exact Double.ofInt_ne_nan _
    · exact Double.neg_ne_nan (Double.ofInt_ne_nan n)
  | real x => exact Double.neg_ne_nan h

end Number

/-! ### Literals -/

theorem exists_of_mem_mapM {α β : Type} {f : α → Option β} {xs : List α} {ys : List β}
    (h : xs.mapM f = some ys) {y : β} (hy : y ∈ ys) : ∃ x ∈ xs, f x = some y := by
  induction xs generalizing ys with
  | nil =>
    cases h
    cases hy
  | cons x xs ih =>
    rw [List.mapM_cons] at h
    obtain ⟨z, hz, h⟩ := Option.bind_eq_some_iff.1 h
    obtain ⟨zs, hzs, h⟩ := Option.bind_eq_some_iff.1 h
    cases h
    rcases List.mem_cons.1 hy with rfl | hy
    · exact ⟨x, List.mem_cons_self, hz⟩
    · obtain ⟨x', hx', hfx'⟩ := ih hzs hy
      exact ⟨x', List.mem_cons_of_mem _ hx', hfx'⟩

/-- What a loop with a filter collects comes from some element. -/
theorem exists_of_mem_loop {α β : Type} {keep : α → Option Bool} {f : α → Option (List β)}
    {xs : List α} {results : List (List β)}
    (h : (xs.mapM fun x => (keep x).bind fun kept => if kept then f x else some []) = some results)
    {y : β} (hy : y ∈ results.flatten) : ∃ x ∈ xs, ∃ ys, f x = some ys ∧ y ∈ ys := by
  obtain ⟨ys, hys, hmem⟩ := List.mem_flatten.1 hy
  obtain ⟨x, hx, hfx⟩ := exists_of_mem_mapM h hys
  obtain ⟨kept, -, hfx⟩ := Option.bind_eq_some_iff.1 hfx
  split_ifs at hfx
  · exact ⟨x, hx, ys, hfx, hmem⟩
  · cases hfx
    cases hmem

namespace Literal

/-- A literal as it can be read from a text: no number is `nan`, and no key occurs twice in an
object. -/
inductive WellFormed : Literal → Prop
  | null : WellFormed .null
  | bool (b : Bool) : WellFormed (.bool b)
  | number {n : Number} (hn : n.toDouble ≠ .nan) : WellFormed (.number n)
  | string (s : String) : WellFormed (.string s)
  | list {items : List Literal} (hitems : ∀ v ∈ items, WellFormed v) : WellFormed (.list items)
  | object {members : OrderedMap Literal} (hdistinct : members.Distinct)
      (hmembers : ∀ e ∈ members, WellFormed e.2) : WellFormed (.object members)

/-! ### Operators -/

theorem wellFormed_unary {op : UnaryOp} {v w : Literal} (hv : v.WellFormed)
    (h : unary op v = some w) : w.WellFormed := by
  unfold unary at h
  split at h
  · cases h
    cases hv with
    | number hn => exact .number (Number.toDouble_neg_ne_nan hn)
  · cases h
    exact .bool _
  · cases h

theorem wellFormed_arithmetic {op : Number → Number → Option Number}
    (hop : ∀ a b r, op a b = some r → r.toDouble ≠ .nan) {v w r : Literal}
    (h : arithmetic op v w = some r) : r.WellFormed := by
  unfold arithmetic at h
  split at h
  · obtain ⟨n, hn, rfl⟩ := Option.map_eq_some_iff.1 h
    exact .number (hop _ _ n hn)
  · cases h

theorem wellFormed_comparison {op : Number → Number → Bool} {v w r : Literal}
    (h : comparison op v w = some r) : r.WellFormed := by
  unfold comparison at h
  split at h
  · cases h
    exact .bool _
  · cases h

theorem wellFormed_logical {op : Bool → Bool → Bool} {v w r : Literal}
    (h : logical op v w = some r) : r.WellFormed := by
  unfold logical at h
  split at h
  · cases h
    exact .bool _
  · cases h

/-- The result of an operation is well formed, whatever its operands are. -/
theorem wellFormed_binary {op : BinaryOp} {v w r : Literal} (h : binary op v w = some r) :
    r.WellFormed := by
  cases op with
  | mul | add | sub | rem =>
    exact wellFormed_arithmetic (fun _ _ _ => Number.toDouble_combine_ne_nan) h
  | div => exact wellFormed_arithmetic (fun _ _ _ => Number.toDouble_ofDouble?_ne_nan) h
  | less | lessEq | greater | greaterEq => exact wellFormed_comparison h
  | eq | notEq =>
    cases h
    exact .bool _
  | and | or => exact wellFormed_logical h

/-! ### Access -/

theorem WellFormed.member? {v w : Literal} (hv : v.WellFormed) {key : String}
    (h : v.member? key = some w) : w.WellFormed := by
  cases hv with
  | object _ hmembers => exact hmembers _ (mem_of_lookup_eq_some h)
  | _ => cases h

theorem WellFormed.item? {v w : Literal} (hv : v.WellFormed) {n : Nat}
    (h : v.item? n = some w) : w.WellFormed := by
  cases hv with
  | list hitems => exact hitems _ (List.mem_of_getElem? h)
  | _ => cases h

theorem WellFormed.at? {v w key : Literal} (hv : v.WellFormed) (h : v.at? key = some w) :
    w.WellFormed := by
  unfold Literal.at? at h
  split at h
  · split_ifs at h
    exact hv.item? h
  · exact hv.member? h
  · cases h

theorem WellFormed.spread {v : Literal} (hv : v.WellFormed) : ∀ w ∈ v.spread, w.WellFormed := by
  cases v with
  | null => exact List.forall_mem_nil _
  | list items =>
    cases hv with
    | list hitems => exact hitems
  | _ =>
    intro w hw
    rw [List.mem_singleton.1 hw]
    exact hv

theorem WellFormed.followNames {v w : Literal} (hv : v.WellFormed) {names : List String}
    (h : v.followNames names = some w) : w.WellFormed := by
  induction names generalizing v with
  | nil =>
    cases h
    exact hv
  | cons name rest ih =>
    rw [Literal.followNames, List.foldlM_cons] at h
    obtain ⟨u, hu, hrest⟩ := Option.bind_eq_some_iff.1 h
    exact ih (hv.member? hu) hrest

theorem WellFormed.follow {v w : Literal} (hv : v.WellFormed) {steps : List Access}
    (h : v.follow steps = some w) : w.WellFormed := by
  fun_induction Literal.follow v steps generalizing w with
  | case1 =>
    cases h
    exact hv
  | case2 v name rest ih =>
    obtain ⟨u, hu, h⟩ := Option.bind_eq_some_iff.1 h
    exact ih u (hv.member? hu) h
  | case3 v n rest ih =>
    obtain ⟨u, hu, h⟩ := Option.bind_eq_some_iff.1 h
    exact ih u (hv.item? hu) h
  | case4 v key rest ih =>
    obtain ⟨u, hu, h⟩ := Option.bind_eq_some_iff.1 h
    exact ih u (hv.at? hu) h
  | case5 v rest ih =>
    obtain ⟨items, hitems, h⟩ := Option.bind_eq_some_iff.1 h
    refine ih items (.list fun u hu => ?_) h
    obtain ⟨x, hx, hxu⟩ := exists_of_mem_mapM hitems hu
    exact (hv.spread x hx).followNames hxu
  | case6 v rest ih =>
    obtain ⟨items, hitems, h⟩ := Option.bind_eq_some_iff.1 h
    cases h
    refine .list fun u hu => ?_
    obtain ⟨x, hx, hxu⟩ := exists_of_mem_mapM hitems hu
    exact ih x (hv.spread x hx) hxu

/-- Loops run over well-formed keys and elements. -/
theorem WellFormed.elements? {v : Literal} (hv : v.WellFormed) {elements : List (Literal × Literal)}
    (h : v.elements? = some elements) :
    ∀ e ∈ elements, e.1.WellFormed ∧ e.2.WellFormed := by
  cases hv with
  | list hitems =>
    cases h
    intro e he
    obtain ⟨⟨u, i⟩, hu, rfl⟩ := List.mem_map.1 he
    exact ⟨.number (Double.ofInt_ne_nan _), hitems u (List.fst_mem_of_mem_zipIdx hu)⟩
  | object _ hmembers =>
    cases h
    intro e he
    obtain ⟨⟨key, u⟩, hu, rfl⟩ := List.mem_map.1 he
    exact ⟨.string key, hmembers _ hu⟩
  | _ => cases h

/-- Grouping keeps the keys distinct and takes every value from an entry. -/
theorem wellFormed_groups {entries : List (String × Literal)} {groups : OrderedMap (List Literal)}
    (hentries : ∀ e ∈ entries, e.2.WellFormed) (hdistinct : groups.Distinct)
    (hgroups : ∀ g ∈ groups, ∀ v ∈ g.2, v.WellFormed) :
    let all := entries.foldl
      (fun acc e => acc.insert e.1 ((acc.lookup e.1).getD [] ++ [e.2])) groups
    Distinct all ∧ ∀ g ∈ all, ∀ v ∈ g.2, v.WellFormed := by
  induction entries generalizing groups with
  | nil => exact ⟨hdistinct, hgroups⟩
  | cons e rest ih =>
    rw [List.forall_mem_cons] at hentries
    refine ih hentries.2 (hdistinct.insert _ _) fun g hg v hv => ?_
    rcases eq_or_mem_of_mem_insert hg with rfl | hg
    · rcases List.mem_append.1 hv with hv | hv
      · -- a value that the group of the key had before
        cases hlookup : groups.lookup e.1 with
        | none => simp [hlookup] at hv
        | some vs =>
          rw [hlookup, Option.getD_some] at hv
          exact hgroups _ (mem_of_lookup_eq_some hlookup) v hv
      · rw [List.mem_singleton.1 hv]
        exact hentries.1
    · exact hgroups g hg v hv

theorem wellFormed_collect {grouped : Bool} {entries : List (String × Literal)}
    (hentries : ∀ e ∈ entries, e.2.WellFormed) {v : Literal}
    (h : collect grouped entries = some v) : v.WellFormed := by
  unfold collect at h
  split_ifs at h with hg hd
  · cases h
    obtain ⟨hdistinct, hgroups⟩ := wellFormed_groups hentries distinct_nil (by simp)
    refine .object (hdistinct.mapValues Literal.list) fun e he => ?_
    obtain ⟨g, hg, rfl⟩ := List.mem_map.1 he
    exact .list (hgroups g hg)
  · cases h
    exact .object hd hentries

end Literal

/-! ### Expressions -/

mutual

/-- The numbers that are written where the value of an expression comes from: not in conditions,
filters, keys and texts. -/
def Expr.numerals : Expr → List Number
  | .number n => [n]
  | .template [.interpolation _ inner] => inner.numerals
  | .list items => listNumerals items
  | .object items => itemNumerals items
  | .parens inner => inner.numerals
  | .unary _ operand => operand.numerals
  | .conditional _ yes no => yes.numerals ++ no.numerals
  | .traversal base _ => base.numerals
  | .forList _ collection body _ => collection.numerals ++ body.numerals
  | .forObject _ collection _ body _ _ => collection.numerals ++ body.numerals
  | _ => []
termination_by structural e => e

/-- The numbers in the values of expressions. -/
def listNumerals : List Expr → List Number
  | [] => []
  | e :: rest => e.numerals ++ listNumerals rest

/-- The numbers in the value of an object item. -/
def ObjectItem.numerals : ObjectItem → List Number
  | .named _ e => e.numerals
  | .computed _ e => e.numerals

/-- The numbers in the values of object items. -/
def itemNumerals : List ObjectItem → List Number
  | [] => []
  | item :: rest => item.numerals ++ itemNumerals rest

end

/-- A scope that binds well-formed literals only. -/
def Scope.WellFormed (scope : Scope) : Prop := ∀ e ∈ scope, e.2.WellFormed

theorem Scope.WellFormed.bind {scope : Scope} (h : scope.WellFormed) (binder : Binder)
    {key value : Literal} (hkey : key.WellFormed) (hvalue : value.WellFormed) :
    Scope.WellFormed (binder.bind scope key value) := by
  unfold Binder.bind
  split
  · exact List.forall_mem_cons.2 ⟨hvalue, List.forall_mem_cons.2 ⟨hkey, h⟩⟩
  · exact List.forall_mem_cons.2 ⟨hvalue, h⟩

mutual

/-- The value of an expression is well formed. Loops bind elements of a collection, so the scope
varies along the recursion and stays well formed. -/
theorem Expr.wellFormed_eval (e : Expr) {scope : Scope} (hscope : scope.WellFormed)
    (hn : ∀ n ∈ e.numerals, n.toDouble ≠ .nan) {v : Literal} (h : e.eval scope = some v) :
    v.WellFormed := by
  match e with
  | .null =>
    rw [Expr.eval_null] at h
    cases h
    exact .null
  | .bool b =>
    rw [Expr.eval_bool] at h
    cases h
    exact .bool b
  | .number n =>
    rw [Expr.eval_number] at h
    cases h
    exact .number (hn n (List.mem_singleton_self n))
  | .string s =>
    rw [Expr.eval_string] at h
    cases h
    exact .string s
  | .variable name =>
    rw [Expr.eval_variable] at h
    exact hscope _ (mem_of_lookup_eq_some h)
  | .template parts =>
    by_cases hsingle : ∃ strip inner, parts = [.interpolation strip inner]
    · obtain ⟨strip, inner, rfl⟩ := hsingle
      rw [Expr.eval_interpolation] at h
      exact inner.wellFormed_eval hscope hn h
    · have htext : ∀ strip inner, parts ≠ [.interpolation strip inner] :=
        fun strip inner hparts => hsingle ⟨strip, inner, hparts⟩
      rw [Expr.eval_template scope htext] at h
      obtain ⟨cs, -, rfl⟩ := Option.map_eq_some_iff.1 h
      exact .string _
  | .heredoc parts =>
    rw [Expr.eval_heredoc] at h
    obtain ⟨cs, -, rfl⟩ := Option.map_eq_some_iff.1 h
    exact .string _
  | .list items =>
    rw [Expr.eval_list] at h
    obtain ⟨vs, hvs, rfl⟩ := Option.map_eq_some_iff.1 h
    exact .list (wellFormed_listValues items hscope hn hvs)
  | .object items =>
    rw [Expr.eval_object] at h
    obtain ⟨entries, hentries, rfl⟩ := Option.map_eq_some_iff.1 h
    have hvalues := wellFormed_itemValues items hscope hn hentries
    exact .object (distinct_ofEntries _) fun e he => hvalues e (mem_of_mem_ofEntries he)
  | .parens inner =>
    rw [Expr.eval_parens] at h
    exact inner.wellFormed_eval hscope hn h
  | .call function args =>
    rw [Expr.eval_call] at h
    cases h
  | .unary op operand =>
    rw [Expr.eval_unary] at h
    obtain ⟨w, hw, h⟩ := Option.bind_eq_some_iff.1 h
    have hoperand := operand.wellFormed_eval hscope hn hw
    exact Literal.wellFormed_unary hoperand h
  | .binary left op right =>
    obtain ⟨top, x, y, hxy⟩ := Expr.eval_binary_eq_some h
    exact Literal.wellFormed_binary hxy
  | .conditional condition yes no =>
    rw [Expr.numerals, List.forall_mem_append] at hn
    rw [Expr.eval_conditional] at h
    obtain ⟨c, -, h⟩ := Option.bind_eq_some_iff.1 h
    obtain ⟨b, -, h⟩ := Option.bind_eq_some_iff.1 h
    split_ifs at h
    · exact yes.wellFormed_eval hscope hn.1 h
    · exact no.wellFormed_eval hscope hn.2 h
  | .traversal base steps =>
    rw [Expr.eval_traversal] at h
    obtain ⟨w, hw, h⟩ := Option.bind_eq_some_iff.1 h
    obtain ⟨accesses, -, h⟩ := Option.bind_eq_some_iff.1 h
    have hbase := base.wellFormed_eval hscope hn hw
    exact hbase.follow h
  | .forList binder collection body filter =>
    rw [Expr.numerals, List.forall_mem_append] at hn
    rw [Expr.eval_forList] at h
    obtain ⟨c, hc, h⟩ := Option.bind_eq_some_iff.1 h
    obtain ⟨elements, helements, h⟩ := Option.bind_eq_some_iff.1 h
    obtain ⟨vs, hvs, rfl⟩ := Option.map_eq_some_iff.1 h
    have hcollection := (collection.wellFormed_eval hscope hn.1 hc).elements? helements
    refine .list fun v hv => ?_
    -- every item is the value of the loop body under some element of the collection
    obtain ⟨e, he, kept, hkept, hv⟩ := exists_of_mem_loop hvs hv
    obtain ⟨w, hw, rfl⟩ := Option.map_eq_some_iff.1 hkept
    rw [List.mem_singleton.1 hv]
    have hinner := hscope.bind binder (hcollection e he).1 (hcollection e he).2
    exact body.wellFormed_eval hinner hn.2 hw
  | .forObject binder collection key body grouped filter =>
    rw [Expr.numerals, List.forall_mem_append] at hn
    rw [Expr.eval_forObject] at h
    obtain ⟨c, hc, h⟩ := Option.bind_eq_some_iff.1 h
    obtain ⟨elements, helements, h⟩ := Option.bind_eq_some_iff.1 h
    obtain ⟨entries, hentries, h⟩ := Option.bind_eq_some_iff.1 h
    have hcollection := (collection.wellFormed_eval hscope hn.1 hc).elements? helements
    refine Literal.wellFormed_collect (fun entry hentry => ?_) h
    obtain ⟨e, he, kept, hkept, hentry⟩ := exists_of_mem_loop hentries hentry
    obtain ⟨name, -, hkept⟩ := Option.bind_eq_some_iff.1 hkept
    obtain ⟨w, hw, rfl⟩ := Option.map_eq_some_iff.1 hkept
    rw [List.mem_singleton.1 hentry]
    have hinner := hscope.bind binder (hcollection e he).1 (hcollection e he).2
    exact body.wellFormed_eval hinner hn.2 hw

theorem wellFormed_listValues (items : List Expr) {scope : Scope} (hscope : scope.WellFormed)
    (hn : ∀ n ∈ listNumerals items, n.toDouble ≠ .nan) {vs : List Literal}
    (h : listValues items scope = some vs) : ∀ v ∈ vs, v.WellFormed := by
  match items with
  | [] =>
    cases h
    simp
  | e :: rest =>
    rw [listNumerals, List.forall_mem_append] at hn
    rw [listValues] at h
    obtain ⟨v, hv, h⟩ := Option.bind_eq_some_iff.1 h
    obtain ⟨vs, hvs, h⟩ := Option.bind_eq_some_iff.1 h
    cases h
    exact List.forall_mem_cons.2 ⟨e.wellFormed_eval hscope hn.1 hv,
      wellFormed_listValues rest hscope hn.2 hvs⟩

theorem ObjectItem.wellFormed_entry (item : ObjectItem) {scope : Scope} (hscope : scope.WellFormed)
    (hn : ∀ n ∈ item.numerals, n.toDouble ≠ .nan) {entry : String × Literal}
    (h : item.entry scope = some entry) : entry.2.WellFormed := by
  match item with
  | .named key e =>
    rw [ObjectItem.entry] at h
    obtain ⟨v, hv, h⟩ := Option.bind_eq_some_iff.1 h
    cases h
    exact e.wellFormed_eval hscope hn hv
  | .computed k e =>
    rw [ObjectItem.entry] at h
    obtain ⟨name, -, h⟩ := Option.bind_eq_some_iff.1 h
    obtain ⟨v, hv, h⟩ := Option.bind_eq_some_iff.1 h
    cases h
    exact e.wellFormed_eval hscope hn hv

theorem wellFormed_itemValues (items : List ObjectItem) {scope : Scope} (hscope : scope.WellFormed)
    (hn : ∀ n ∈ itemNumerals items, n.toDouble ≠ .nan) {entries : List (String × Literal)}
    (h : itemValues items scope = some entries) : ∀ e ∈ entries, e.2.WellFormed := by
  match items with
  | [] =>
    cases h
    simp
  | item :: rest =>
    rw [itemNumerals, List.forall_mem_append] at hn
    rw [itemValues] at h
    obtain ⟨v, hv, h⟩ := Option.bind_eq_some_iff.1 h
    obtain ⟨vs, hvs, h⟩ := Option.bind_eq_some_iff.1 h
    cases h
    exact List.forall_mem_cons.2 ⟨item.wellFormed_entry hscope hn.1 hv,
      wellFormed_itemValues rest hscope hn.2 hvs⟩

end

end ConfigAudit
