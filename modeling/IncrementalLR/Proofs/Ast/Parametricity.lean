import IncrementalLR.Ast.Eval
import Mathlib.Data.List.Forall2
import Mathlib.Data.Option.Basic

namespace IncrementalLR

namespace AstValue

-- Values that are put together alike, of nodes that have something in common.
mutual
def Alike (same : Nat → Nat → Prop) : AstValue → AstValue → Prop
  | node id, node other => same id other
  | ast name fields, ast name' others => name = name' ∧ AlikeFields same fields others
  | list name items, list name' others => name = name' ∧ AlikeItems same items others
  | _, _ => False
def AlikeFields (same : Nat → Nat → Prop) :
    List (String × Option AstValue) → List (String × Option AstValue) → Prop
  | [], [] => True
  | (name, none) :: rest, (name', none) :: others => name = name' ∧ AlikeFields same rest others
  | (name, some value) :: rest, (name', some other) :: others =>
      name = name' ∧ Alike same value other ∧ AlikeFields same rest others
  | _, _ => False
def AlikeItems (same : Nat → Nat → Prop) : List AstValue → List AstValue → Prop
  | [], [] => True
  | value :: rest, other :: others => Alike same value other ∧ AlikeItems same rest others
  | _, _ => False
end

-- What has the same nodes in the same places is the same.
mutual
theorem alike_eq : ∀ value other : AstValue, Alike Eq value other ↔ value = other
  | node _, other => by cases other <;> simp [Alike]
  | ast _ fields, other => by cases other <;> simp [Alike, alikeFields_eq fields]
  | list _ items, other => by cases other <;> simp [Alike, alikeItems_eq items]
theorem alikeFields_eq : ∀ fields others : List (String × Option AstValue), AlikeFields Eq fields others ↔ fields = others
  | [], others => by cases others <;> simp [AlikeFields]
  | (_, none) :: rest, others => by
      rcases others with _ | ⟨⟨_, _ | _⟩, _⟩ <;> simp [AlikeFields, alikeFields_eq rest]
  | (_, some value) :: rest, others => by
      rcases others with _ | ⟨⟨_, _ | _⟩, _⟩ <;> simp [AlikeFields, alike_eq value, alikeFields_eq rest, and_assoc]
theorem alikeItems_eq : ∀ items others : List AstValue, AlikeItems Eq items others ↔ items = others
  | [], others => by cases others <;> simp [AlikeItems]
  | value :: rest, others => by cases others <;> simp [AlikeItems, alike_eq value, alikeItems_eq rest]
end

variable {same : Nat → Nat → Prop}

theorem alikeFields_cons {name name' : String} {value other : Option AstValue}
    {rest others : List (String × Option AstValue)} :
    AlikeFields same ((name, value) :: rest) ((name', other) :: others) ↔
      name = name' ∧ Option.Rel (Alike same) value other ∧ AlikeFields same rest others := by
  cases value with
  | none =>
      cases other with
      | none => simp [AlikeFields]
      | some other => simp [AlikeFields]
  | some value =>
      cases other with
      | none => simp [AlikeFields]
      | some other => simp [AlikeFields]

theorem alikeItems_iff {items others : List AstValue} :
    AlikeItems same items others ↔ List.Forall₂ (Alike same) items others := by
  induction items generalizing others with
  | nil => cases others <;> simp [AlikeItems]
  | cons value rest ih => cases others <;> simp [AlikeItems, ih]

theorem forall₂_getElem? {items others : List AstValue} (h : List.Forall₂ (Alike same) items others) (index : Nat) :
    Option.Rel (Alike same) items[index]? others[index]? := by
  induction h generalizing index with
  | nil => exact .none
  | cons hvalue _ ih =>
      cases index with
      | zero => exact .some hvalue
      | succ index => exact ih index

-- Values of nodes with the same texts are shown alike.
mutual
theorem display_alike {store other : Store} : ∀ {value value' : AstValue},
    Alike (fun id id' => store.text id = other.text id') value value' → display store value = display other value'
  | node _, node _, h => by
      rw [Alike] at h
      rw [display, display, h]
  | ast _ _, ast _ _, h => by
      rw [Alike] at h
      rw [display, display, h.1, displayFields_alike "" h.2]
  | list _ _, list _ _, h => by
      rw [Alike] at h
      rw [display, display, displayItems_alike "" h.2]
  | node _, ast _ _, h | node _, list _ _, h | ast _ _, node _, h | ast _ _, list _ _, h | list _ _, node _, h
  | list _ _, ast _ _, h => by simp [Alike] at h
theorem displayFields_alike {store other : Store} (separator : String) :
    ∀ {fields fields' : List (String × Option AstValue)},
      AlikeFields (fun id id' => store.text id = other.text id') fields fields' →
      displayFields store separator fields = displayFields other separator fields'
  | [], [], _ => rfl
  | (_, none) :: _, (_, none) :: _, h => by
      rw [AlikeFields] at h
      rw [displayFields, displayFields, h.1, displayFields_alike ", " h.2]
  | (_, some _) :: _, (_, some _) :: _, h => by
      rw [AlikeFields] at h
      rw [displayFields, displayFields, h.1, display_alike h.2.1, displayFields_alike ", " h.2.2]
  | [], _ :: _, h | _ :: _, [], h | (_, none) :: _, (_, some _) :: _, h | (_, some _) :: _, (_, none) :: _, h => by
      simp [AlikeFields] at h
theorem displayItems_alike {store other : Store} (separator : String) : ∀ {items items' : List AstValue},
    AlikeItems (fun id id' => store.text id = other.text id') items items' →
      displayItems store separator items = displayItems other separator items'
  | [], [], _ => rfl
  | _ :: _, _ :: _, h => by
      rw [AlikeItems] at h
      rw [displayItems, displayItems, display_alike h.1, displayItems_alike ", " h.2]
  | [], _ :: _, h | _ :: _, [], h => by simp [AlikeItems] at h
end

-- The first field of a name is as alike as the values are.
theorem field?_alike {value other : AstValue} (h : Alike same value other) (name : String) :
    Option.Rel (Alike same) (value.field? name) (other.field? name) := by
  cases value with
  | node id =>
      cases other with
      | node other => exact .none
      | ast _ _ | list _ _ => simp [Alike] at h
  | list _ items =>
      cases other with
      | list _ others => exact .none
      | ast _ _ | node _ => simp [Alike] at h
  | ast _ fields =>
      cases other with
      | node _ | list _ _ => simp [Alike] at h
      | ast _ others =>
          rw [Alike] at h
          obtain ⟨-, h⟩ := h
          rw [field?, field?]
          induction fields generalizing others with
          | nil =>
              cases others with
              | nil => exact .none
              | cons other others => simp [AlikeFields] at h
          | cons field rest ih =>
              cases others with
              | nil => simp [AlikeFields] at h
              | cons other others =>
                  obtain ⟨hname, hvalue, hrest⟩ := alikeFields_cons.mp h
                  rw [List.lookup_cons, List.lookup_cons, hname]
                  split
                  · exact hvalue
                  · exact ih others hrest

end AstValue

namespace Template

open AstValue

variable {same : Nat → Nat → Prop} {store other : Store} {id id' : Nat}

-- What a lookup finds of the children: the abstract value of a child, or else the child.
def values (store : Store) (id : Nat) : List AstValue :=
  (countedChildren store id).map fun child => (store.node child).alternate.getD (.node child)

theorem evalLookup_eq (item : Lookup) :
    evalLookup store id item = (values store id)[item.index]?.bind fun value =>
      match item.attr with
      | none => some value
      | some attr => value.field? attr := by
  rw [values, List.getElem?_map, evalLookup]
  cases (countedChildren store id)[item.index]? with
  | none => rfl
  | some child => rfl

theorem concatenate?_alike {first second first' second' : AstValue} (hfirst : Alike same first first')
    (hsecond : Alike same second second') :
    Option.Rel (Alike same) (concatenate? first second) (concatenate? first' second') := by
  cases first with
  | node _ | ast _ _ => cases first' <;> first | exact .none | simp [Alike] at hfirst
  | list name items =>
      cases first' with
      | node _ | ast _ _ => simp [Alike] at hfirst
      | list name' items' =>
          cases second with
          | node _ | ast _ _ => cases second' <;> first | exact .none | simp [Alike] at hsecond
          | list _ others =>
              cases second' with
              | node _ | ast _ _ => simp [Alike] at hsecond
              | list _ others' =>
                  rw [Alike] at hfirst hsecond
                  refine .some ?_
                  rw [Alike]
                  exact ⟨hfirst.1, alikeItems_iff.mpr (List.rel_append (alikeItems_iff.mp hfirst.2) (alikeItems_iff.mp hsecond.2))⟩

-- Whether templates find alike values in two nodes.
structure Akin (same : Nat → Nat → Prop) (store : Store) (id : Nat) (other : Store) (id' : Nat) : Prop where
  values : List.Forall₂ (Alike same) (values store id) (values other id')
  name : (store.node id).symbol.name = (other.node id').symbol.name

theorem evalLookup_alike (ha : Akin same store id other id') (item : Lookup) :
    Option.Rel (Alike same) (evalLookup store id item) (evalLookup other id' item) := by
  rw [evalLookup_eq, evalLookup_eq]
  have hindex : Option.Rel (Alike same) (values store id)[item.index]? (values other id')[item.index]? :=
    forall₂_getElem? ha.values item.index
  generalize (values store id)[item.index]? = value at hindex
  generalize (values other id')[item.index]? = value' at hindex
  cases hindex with
  | none => exact .none
  | some h =>
      rw [Option.bind_some, Option.bind_some]
      cases item.attr with
      | none => exact .some h
      | some attr => exact field?_alike h attr

mutual
theorem evalValue_alike (ha : Akin same store id other id') : ∀ expr : ValueExpr,
    Option.Rel (Alike same) (evalValue store id expr) (evalValue other id' expr)
  | .lookup item => by
      rw [evalValue, evalValue]
      exact evalLookup_alike ha item
  | .list .nil => by
      rw [evalValue, evalValue, emptyList]
      refine .some ?_
      rw [Alike]
      exact ⟨rfl, trivial⟩
  | .list (.lookup item rest) => by
      simp only [evalValue, listOf, ha.name]
      refine .some ?_
      rw [Alike]
      exact ⟨rfl, alikeItems_iff.mpr (evalElements_alike ha (.lookup item rest))⟩
  | .list (.node item rest) => by
      simp only [evalValue, listOf, ha.name]
      refine .some ?_
      rw [Alike]
      exact ⟨rfl, alikeItems_iff.mpr (evalElements_alike ha (.node item rest))⟩
  | .add first second => by
      rw [evalValue, evalValue]
      have hfirst := evalValue_alike ha first
      have hsecond := evalValue_alike ha second
      generalize evalValue store id first = value at hfirst ⊢
      generalize evalValue other id' first = value' at hfirst ⊢
      generalize evalValue store id second = value₂ at hsecond ⊢
      generalize evalValue other id' second = value₂' at hsecond ⊢
      cases hfirst with
      | none => exact .none
      | some hfirst =>
          cases hsecond with
          | none => exact .none
          | some hsecond => exact concatenate?_alike hfirst hsecond
theorem evalElements_alike (ha : Akin same store id other id') : ∀ elements : Elements,
    List.Forall₂ (Alike same) (evalElements store id elements) (evalElements other id' elements)
  | .nil => .nil
  | .lookup item rest => by
      rw [evalElements, evalElements]
      refine List.rel_append ?_ (evalElements_alike ha rest)
      have hlookup := evalLookup_alike ha item
      generalize evalLookup store id item = value at hlookup ⊢
      generalize evalLookup other id' item = value' at hlookup ⊢
      cases hlookup with
      | none => exact .nil
      | some h => exact .cons h .nil
  | .node item rest => by
      rw [evalElements, evalElements]
      exact .cons (evalNode_alike ha .none item) (evalElements_alike ha rest)
theorem evalNode_alike (ha : Akin same store id other id') {element element' : Option AstValue}
    (he : Option.Rel (Alike same) element element') :
    ∀ expr : NodeExpr, Alike same (evalNode store id element expr) (evalNode other id' element' expr)
  | .mk name fields => by
      rw [evalNode, evalNode, Alike]
      exact ⟨rfl, evalFields_alike ha he fields⟩
theorem evalFields_alike (ha : Akin same store id other id') {element element' : Option AstValue}
    (he : Option.Rel (Alike same) element element') :
    ∀ fields : Fields, AlikeFields same (evalFields store id element fields) (evalFields other id' element' fields)
  | .nil => trivial
  | .value name expr rest => by
      rw [evalFields, evalFields]
      exact alikeFields_cons.mpr ⟨rfl, evalValue_alike ha expr, evalFields_alike ha he rest⟩
  | .reference name base field rest => by
      have hfield : Option.Rel (Alike same) (element.bind (·.field? field)) (element'.bind (·.field? field)) := by
        cases he with
        | none => exact .none
        | some h => exact field?_alike h field
      rw [evalFields, evalFields]
      generalize element.bind (·.field? field) = value at hfield ⊢
      generalize element'.bind (·.field? field) = value' at hfield ⊢
      cases hfield with
      | none => exact evalFields_alike ha he rest
      | some h => exact alikeFields_cons.mpr ⟨rfl, .some h, evalFields_alike ha he rest⟩
end

-- What a template makes of values that are alike is alike.
theorem eval_alike (ha : Akin same store id other id') (template : Template) :
    Option.Rel (Alike same) (template.eval store id) (template.eval other id') := by
  cases template with
  | node expr => exact .some (evalNode_alike ha .none expr)
  | value expr => exact evalValue_alike ha expr
  | «foreach» item expr =>
      have hlookup := evalLookup_alike ha item
      rw [eval, eval]
      generalize evalLookup store id item = value at hlookup ⊢
      generalize evalLookup other id' item = value' at hlookup ⊢
      cases hlookup with
      | none => exact .none
      | @some value value' h =>
          cases value with
          | node _ | ast _ _ => cases value' <;> first | exact .none | simp [Alike] at h
          | list _ items =>
              cases value' with
              | node _ | ast _ _ => simp [Alike] at h
              | list _ others =>
                  rw [Alike] at h
                  refine .some ?_
                  rw [listOf, listOf, ha.name, Alike]
                  refine ⟨rfl, alikeItems_iff.mpr (List.rel_map (fun _ _ hvalue => ?_) (alikeItems_iff.mp h.2))⟩
                  exact evalNode_alike ha (.some hvalue) expr

-- So a template makes the same of the same values.
theorem eval_congr (hvalues : values store id = values other id')
    (hname : (store.node id).symbol.name = (other.node id').symbol.name) (template : Template) :
    template.eval store id = template.eval other id' := by
  have hsame : List.Forall₂ (Alike Eq) (values store id) (values other id') := by
    rw [hvalues]
    exact List.forall₂_same.mpr fun value _ => (alike_eq value value).mpr rfl
  have halike := eval_alike ⟨hsame, hname⟩ template
  generalize template.eval store id = value at halike ⊢
  generalize template.eval other id' = value' at halike ⊢
  cases halike with
  | none => rfl
  | some h => rw [(alike_eq _ _).mp h]

end Template

end IncrementalLR
