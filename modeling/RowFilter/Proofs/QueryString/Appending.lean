import RowFilter.Proofs.Json.Pointer
import RowFilter.Proofs.QueryString.Accumulation

/-!
What a parameter that ends in an append does to the container it leads to. Whatever is stored below
a place changes nothing outside of it (`Node.Leads.sameBut_insert`). At slots an append makes a new
one behind all others. At members it goes to the name that is their number; this makes a new member
only if none has the name already, and otherwise the value is put to what that member holds
(`extends_decode_iff`).
-/

set_option autoImplicit false

namespace RowFilter

namespace Json

/-! ### Values that differ at one place -/

/-- A container with the value as one more element behind all others; the new name of an object is
not among the old ones. -/
inductive Extends (value : Json) : Json → Json → Prop
  | array (items : List Json) : Extends value (.array items) (.array (items ++ [value]))
  | object {members : List (String × Json)} {name : String} (fresh : name ∉ members.map Prod.fst) :
      Extends value (.object members) (.object (members ++ [(name, value)]))

/-- Two values that are the same but for what a pointer leads to: `old` in the one and `new` in the
other. -/
inductive SameBut (old new : Json) : Pointer → Json → Json → Prop
  | here : SameBut old new [] old new
  | item {front back : List Json} {x y : Json} {p : Pointer} (inner : SameBut old new p x y) :
      SameBut old new (toString front.length :: p) (.array (front ++ x :: back))
        (.array (front ++ y :: back))
  | member {front back : List (String × Json)} {name : String} {x y : Json} {p : Pointer}
      (first : name ∉ front.map Prod.fst) (inner : SameBut old new p x y) :
      SameBut old new (name :: p) (.object (front ++ (name, x) :: back))
        (.object (front ++ (name, y) :: back))

theorem child?_item (front : List Json) (x : Json) (back : List Json) :
    (Json.array (front ++ x :: back)).child? (toString front.length) = some x := by
  rw [child?_array, List.getElem?_append_right (Nat.le_refl _), Nat.sub_self]
  rfl

theorem child?_member {front : List (String × Json)} {name : String}
    (h : name ∉ front.map Prod.fst) (x : Json) (back : List (String × Json)) :
    (Json.object (front ++ (name, x) :: back)).child? name = some x := by
  have hfront : ∀ m ∈ front, m.1 ≠ name := fun m hm heq ↦ h (heq ▸ List.mem_map_of_mem hm)
  rw [child?, Assoc.get?_append_of_ne hfront, Assoc.get?, if_pos rfl]

/-- The pointer leads to the one value and to the other. -/
theorem SameBut.resolve? {old new v w : Json} {p : Pointer} (h : SameBut old new p v w) :
    v.resolve? p = some old ∧ w.resolve? p = some new := by
  induction h with
  | here => exact ⟨rfl, rfl⟩
  | item _ ih =>
    rw [Json.resolve?, Json.resolve?, child?_item, child?_item]
    exact ih
  | member first _ ih =>
    rw [Json.resolve?, Json.resolve?, child?_member first, child?_member first]
    exact ih

end Json

namespace QueryString

open Assoc (Ascending)

/-! ### Steps to a node -/

/-- The steps lead from a node down to the target, and in the decoded value the pointer leads there.
An index finds its slot, which is counted without the gaps, and a key or an index finds the member
of its text. A key finds nothing among slots, also where it is the text of an index: slots that meet
a key are made members first, so the value that the steps start from does not keep its form. An
append finds nothing at all. -/
inductive Node.Leads (target : Node) : List Step → Pointer → Node → Prop
  | here : Leads target [] [] target
  | slot {front back : List (Nat × Node)} {i : Nat} {child : Node} {steps : List Step} {p : Pointer}
      (below : Leads target steps p child) :
      Leads target (.index i :: steps) (toString front.length :: p)
        (.slots (front ++ (i, child) :: back))
  | member {front back : List (String × Node)} {step : Step} {child : Node} {steps : List Step}
      {p : Pointer} (named : step ≠ .append) (below : Leads target steps p child) :
      Leads target (step :: steps) (step.text :: p)
        (.members (front ++ (step.text, child) :: back))

section SameBut

variable {old new : Json} {p : Pointer} {child child' : Node}

theorem sameBut_slots (h : Json.SameBut old new p child.toJson child'.toJson)
    (front back : List (Nat × Node)) (i : Nat) :
    Json.SameBut old new (toString front.length :: p)
      (Node.slots (front ++ (i, child) :: back)).toJson
      (Node.slots (front ++ (i, child') :: back)).toJson := by
  have hlength : (Node.slotValues front).length = front.length := by
    rw [slotValues_eq_map, List.length_map]
  rw [Node.toJson, Node.toJson, ← hlength, slotValues_eq_map, slotValues_eq_map, slotValues_eq_map,
    List.map_append, List.map_append]
  exact .item h

theorem sameBut_members (h : Json.SameBut old new p child.toJson child'.toJson) {name : String}
    {front : List (String × Node)} (hfirst : name ∉ front.map Prod.fst)
    (back : List (String × Node)) :
    Json.SameBut old new (name :: p) (Node.members (front ++ (name, child) :: back)).toJson
      (Node.members (front ++ (name, child') :: back)).toJson := by
  rw [← map_fst_memberValues, memberValues_eq_map] at hfirst
  rw [Node.toJson, Node.toJson, memberValues_eq_map, memberValues_eq_map, List.map_append,
    List.map_append]
  exact .member hfirst h

end SameBut

theorem alterMembers_of_ne_append {step : Step} (h : step ≠ .append) (f : Option Node → Node)
    (items : List (String × Node)) :
    Node.alterMembers f items step = .members (Assoc.alter step.text f items) := by
  cases step with
  | key name => rfl
  | index i => rfl
  | append => exact absurd rfl h

/-- Storing a value below a place changes nothing but what is at the place. -/
theorem Node.Leads.sameBut_insert {target node : Node} {steps : List Step} {p : Pointer}
    (h : Leads target steps p node) (hnode : node.WellFormed) (value : Scalar)
    (rest : List Step) :
    Json.SameBut target.toJson (Node.insert value rest target).toJson p node.toJson
      (Node.insert value (steps ++ rest) node).toJson := by
  induction h with
  | here => exact .here
  | @slot front back i child _ _ _ ih =>
    cases hnode with
    | slots _ ascending children =>
      rw [List.cons_append, Node.insert, Node.alterChild, Node.alterSlots,
        ascending.alterSorted_append_cons, Option.elim_some]
      exact sameBut_slots (ih (children (i, child) (by simp))) front back i
  | @member front back step child _ _ named _ ih =>
    cases hnode with
    | members _ nodup children =>
      have hfirst : step.text ∉ front.map Prod.fst := by
        rw [List.map_append, List.map_cons] at nodup
        exact fun hmem ↦ (List.nodup_append.mp nodup).2.2 _ hmem _ List.mem_cons_self rfl
      rw [List.cons_append, Node.insert, Node.alterChild, alterMembers_of_ne_append named,
        Assoc.alter_append_cons hfirst, Option.elim_some]
      exact sameBut_members (ih (children (step.text, child) (by simp))) hfirst back

/-! ### Appending -/

/-- An append at slots makes a new one. -/
theorem extends_slots (value : Scalar) (items : List (Nat × Node)) :
    Json.Extends (.scalar value) (Node.slots items).toJson
      (Node.insert value [.append] (.slots items)).toJson := by
  rw [Node.insert, Node.alterChild, Node.alterSlots, Option.elim_none, Node.toJson, Node.toJson,
    slotValues_eq_map, slotValues_eq_map, List.map_append]
  exact .array _

/-- An append at members makes a new one exactly when the name that it leads to is free. -/
theorem extends_members_iff (value : Scalar) (items : List (String × Node)) :
    Json.Extends (.scalar value) (Node.members items).toJson
        (Node.insert value [.append] (.members items)).toJson ↔
      toString items.length ∉ items.map Prod.fst := by
  have hinsert : Node.insert value [.append] (.members items) = .members (Assoc.alter
      (toString items.length) (fun child ↦ child.elim (.leaf value) (Node.insert value [])) items) :=
    rfl
  rw [hinsert, Node.toJson, Node.toJson]
  constructor
  · intro hextends htaken
    generalize hmembers : Node.memberValues (Assoc.alter _ _ items) = members at hextends
    have hnames := congrArg (List.map Prod.fst) hmembers
    rw [map_fst_memberValues, Assoc.keys_alter, if_pos htaken, ← map_fst_memberValues] at hnames
    cases hextends with
    | object _ => simp at hnames
  · intro hfree
    have hkeys : ∀ e ∈ items, e.1 ≠ toString items.length :=
      fun e he heq ↦ hfree (heq ▸ List.mem_map_of_mem he)
    have hbehind := Assoc.alter_behind hkeys
      (fun child ↦ child.elim (.leaf value) (Node.insert value [])) none
    rw [Option.toList_none, List.map_nil, List.append_nil] at hbehind
    rw [hbehind, memberValues_eq_map, memberValues_eq_map, List.map_append]
    refine .object ?_
    rwa [List.map_map]

/-- An append at a container makes a new element unless its name is taken. -/
theorem extends_insert_iff {container : Node} (h : ∀ old, container ≠ .leaf old) (value : Scalar) :
    Json.Extends (.scalar value) container.toJson (Node.insert value [.append] container).toJson ↔
      ∀ items, container = .members items → toString items.length ∉ items.map Prod.fst := by
  cases container with
  | leaf old => exact absurd rfl (h old)
  | slots items => exact iff_of_true (extends_slots value items) fun _ heq ↦ by cases heq
  | members items =>
    rw [extends_members_iff]
    constructor
    · rintro hfree _ ⟨⟩
      exact hfree
    · exact fun hfree ↦ hfree items rfl

/-! ### Decoding -/

theorem Parameter.ofPair?_append {pair : String × String} {path : Path} {value : Scalar}
    (hpath : path.Plain) (hshort : path.steps.length < 5) (hname : pair.1 = path.text ++ "[]")
    (hvalue : coerce? pair.2 = some value) :
    Parameter.ofPair? pair = some ⟨⟨path.root, path.steps ++ [.append]⟩, value⟩ := by
  have hplain := hpath.append hshort
  rw [Path.text_append_brackets] at hname
  rw [Parameter.ofPair?, hname, if_neg (Path.text_ne_empty hplain), Path.ofName_text hplain, hvalue,
    Option.map_some]

theorem Node.Leads.ne_nil {target : Node} {step : Step} {steps : List Step} {p : Pointer}
    {items : List (String × Node)} (h : Leads target (step :: steps) p (.members items)) :
    items ≠ [] := by
  generalize hnode : Node.members items = node at h
  cases h with
  | slot _ => cases hnode
  | member _ _ =>
    cases hnode
    simp

/-- A pair that appends to a container changes nothing outside of it. The container gets the value
as one more element, behind its other elements, exactly if it is a list or none of its names is the
number of its members. -/
theorem extends_decode_iff {before after : String} {pair : String × String} {path : Path}
    {value : Scalar} {container : Node} {place : Pointer}
    (hpairs : pairs after = pairs before ++ [pair]) (hlength : (pairs before).length ≤ 999)
    (hpath : path.Plain) (hshort : path.steps.length < 5) (hname : pair.1 = path.text ++ "[]")
    (hvalue : coerce? pair.2 = some value)
    (hleads : container.Leads (.key path.root :: path.steps) place
      (.members (Tree.ofParameters (parameters before))))
    (hcontainer : ∀ old, container ≠ .leaf old) :
    (∃ changed, Json.SameBut container.toJson changed place (decode before) (decode after)) ∧
      ((∃ larger, Json.Extends (.scalar value) container.toJson larger ∧
          Json.SameBut container.toJson larger place (decode before) (decode after)) ↔
        ∀ items, container = .members items → toString items.length ∉ items.map Prod.fst) := by
  have htree := Tree.wellFormed_ofParameters (parameters before)
  have hwell : (Node.members (Tree.ofParameters (parameters before))).WellFormed :=
    .members hleads.ne_nil htree.nodup htree.children
  have hafter : (pairs after).length ≤ 1000 := by
    rw [hpairs, List.length_append, List.length_singleton]
    exact Nat.succ_le_succ hlength
  have hnext := ofParameters_next_pair hpairs hafter
  rw [Parameter.ofPair?_append hpath hshort hname hvalue, Option.elim_some] at hnext
  have hsame : Json.SameBut container.toJson (Node.insert value [.append] container).toJson place
      (decode before) (decode after) := by
    rw [decode, decode, hnext]
    exact hleads.sameBut_insert hwell value [.append]
  refine ⟨⟨_, hsame⟩, ?_⟩
  rw [← extends_insert_iff hcontainer value]
  constructor
  · rintro ⟨larger, hlarger, hother⟩
    have heq := Option.some.inj (hother.resolve?.2.symm.trans hsame.resolve?.2)
    rwa [heq] at hlarger
  · exact fun h ↦ ⟨_, h, hsame⟩

theorem extends_decode_at_members :
    ∃ larger, Json.Extends (.bool true) (.object [("b", .int 1)]) larger ∧
      Json.SameBut (.object [("b", .int 1)]) larger ["a", "c"] (decode "a[0]=x&a[c][b]=1")
        (decode "a[0]=x&a[c][b]=1&a[c][]=true") := by
  have hparameters : parameters "a[0]=x&a[c][b]=1" =
      [⟨⟨"a", [.index 0]⟩, .string "x"⟩, ⟨⟨"a", [.key "c", .key "b"]⟩, .int 1⟩] := by decide
  have hkey : Step.Plain (.key "c") := ⟨by decide, by decide, by decide, by decide⟩
  have hplain : Path.Plain ⟨"a", [.key "c"]⟩ :=
    ⟨by decide, by decide, by decide, List.forall_mem_singleton.mpr hkey⟩
  have hleads : Node.Leads (.members [("b", .leaf (.int 1))]) [.key "a", .key "c"] ["a", "c"]
      (.members (Tree.ofParameters (parameters "a[0]=x&a[c][b]=1"))) := by
    rw [hparameters]
    exact @Node.Leads.member _ [] [] (.key "a") _ _ _ nofun
      (@Node.Leads.member _ [("0", .leaf (.string "x"))] [] (.key "c") _ _ _ nofun .here)
  have hpairs : pairs "a[0]=x&a[c][b]=1&a[c][]=true" =
      pairs "a[0]=x&a[c][b]=1" ++ [("a[c][]", "true")] := by decide +kernel
  have hvalue : coerce? "true" = some (.bool true) := by decide
  have hstep := extends_decode_iff hpairs (by decide) hplain (by decide) (by decide) hvalue hleads
    (by simp)
  refine hstep.2.mpr ?_
  rintro _ ⟨⟩
  decide

/-- The number of the members may be one of their names, and then nothing is added to them. -/
theorem not_forall_extends_decode :
    ¬ ∀ (before after : String) (pair : String × String) (path : Path) (value : Scalar)
      (container : Node) (place : Pointer), pairs after = pairs before ++ [pair] →
      (pairs before).length ≤ 999 → path.Plain → path.steps.length < 5 →
      pair.1 = path.text ++ "[]" → coerce? pair.2 = some value →
      container.Leads (.key path.root :: path.steps) place
        (.members (Tree.ofParameters (parameters before))) →
      (∀ old, container ≠ .leaf old) →
      ∃ larger, Json.Extends (.scalar value) container.toJson larger ∧
        Json.SameBut container.toJson larger place (decode before) (decode after) := by
  intro h
  have hbefore : parameters "a[b]=1&a[2]=x" =
      [⟨⟨"a", [.key "b"]⟩, .int 1⟩, ⟨⟨"a", [.index 2]⟩, .string "x"⟩] := by decide
  have hafter : parameters "a[b]=1&a[2]=x&a[]=y" =
      [⟨⟨"a", [.key "b"]⟩, .int 1⟩, ⟨⟨"a", [.index 2]⟩, .string "x"⟩,
        ⟨⟨"a", [.append]⟩, .string "y"⟩] := by decide
  have hplain : Path.Plain ⟨"a", []⟩ :=
    ⟨by decide, by decide, by decide, List.forall_mem_nil _⟩
  have hleads : Node.Leads (.members [("b", .leaf (.int 1)), ("2", .leaf (.string "x"))]) [.key "a"]
      ["a"] (.members (Tree.ofParameters (parameters "a[b]=1&a[2]=x"))) := by
    rw [hbefore]
    exact @Node.Leads.member _ [] [] (.key "a") _ _ _ nofun .here
  obtain ⟨larger, hlarger, hsame⟩ := h "a[b]=1&a[2]=x" "a[b]=1&a[2]=x&a[]=y" ("a[]", "y") ⟨"a", []⟩
    (.string "y") _ ["a"] (by decide) (by decide) hplain (by decide) (by decide) (by decide) hleads
    (by simp)
  have hresolved := hsame.resolve?.2
  rw [decode, hafter] at hresolved
  have hmerged : some (Json.object [("b", .int 1), ("2", .array [.string "x", .string "y"])]) =
      some larger := hresolved
  cases hmerged
  generalize hmembers : [("b", Json.int 1), ("2", .array [.string "x", .string "y"])] = members
    at hlarger
  cases hlarger
  cases hmembers

end QueryString

end RowFilter
