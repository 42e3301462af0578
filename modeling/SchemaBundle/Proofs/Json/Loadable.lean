import SchemaBundle.Proofs.Json.Loaded
import SchemaBundle.Proofs.Json.Layout
import SchemaBundle.Proofs.Schema.Form

/-!
# Values that can be loaded

Whether a value can be loaded (`Json.Loadable`) depends neither on the order of members nor on the
strings in it. A schema keeps this when it is brought into its form.
-/

namespace SchemaBundle

namespace Json

/-! ## Strings do not matter -/

mutual

theorem loadable_mapStrings_iff {f : String → String} : ∀ value : Json,
    (value.mapStrings f).Loadable ↔ value.Loadable
  | .null | .bool _ | .int _ | .float _ | .str _ => by simp [mapStrings, Loadable]
  | .arr items => by
    rw [mapStrings, Loadable, Loadable, loadableItems_mapStrings_iff items]
  | .obj members => by
    rw [mapStrings, Loadable, Loadable, loadableMembers_mapStrings_iff members, Entries.Distinct,
      keys_mapStringsOfMembers, Entries.Distinct]

theorem loadableItems_mapStrings_iff {f : String → String} : ∀ items : List Json,
    LoadableItems (mapStringsOfItems f items) ↔ LoadableItems items
  | [] => by rw [mapStringsOfItems]
  | x :: xs => by
    rw [mapStringsOfItems, LoadableItems, LoadableItems, loadable_mapStrings_iff x,
      loadableItems_mapStrings_iff xs]

theorem loadableMembers_mapStrings_iff {f : String → String} : ∀ members : List (String × Json),
    LoadableMembers (mapStringsOfMembers f members) ↔ LoadableMembers members
  | [] => by rw [mapStringsOfMembers]
  | (key, x) :: xs => by
    rw [mapStringsOfMembers, LoadableMembers, LoadableMembers, loadable_mapStrings_iff x,
      loadableMembers_mapStrings_iff xs]

end

/-! ## The order of members does not matter -/

theorem keys_eq_of_sameMembers : ∀ {xs ys : Members} (_ : SameMembers xs ys),
    Entries.keys xs = Entries.keys ys
  | [], [], _ => rfl
  | (_, _) :: _, (_, _) :: _, h => by
    rw [Entries.keys_cons, Entries.keys_cons, h.1, keys_eq_of_sameMembers h.2.2]

mutual

/-- The order of members is of no account. -/
theorem Loadable.of_sameData : ∀ {x y : Json} (_ : SameData x y) (_ : y.Loadable), x.Loadable
  | .null, _, _, _ | .bool _, _, _, _ | .float _, _, _, _ | .str _, _, _, _ => trivial
  | .int _, y, same, h => by
    cases y with
    | int n =>
      obtain rfl : _ = n := by simpa [SameData] using same
      exact h
    | _ => simp [SameData] at same
  | .arr xs, y, same, h => by
    cases y with
    | arr ys => exact loadableItems_of_same same h
    | _ => simp [SameData] at same
  | .obj xs, y, same, h => by
    cases y with
    | obj ys =>
      rw [SameData] at same
      obtain ⟨zs, perm, same⟩ := same
      obtain ⟨distinct, members⟩ := loadable_obj_iff.1 h
      have members' : LoadableMembers zs :=
        loadableMembers_iff.2 fun entry member => members entry (perm.subset member)
      refine ⟨?_, loadableMembers_of_same same members'⟩
      rw [Entries.Distinct, keys_eq_of_sameMembers same]
      exact (perm.map _).nodup_iff.2 distinct
    | _ => simp [SameData] at same

theorem loadableItems_of_same : ∀ {xs ys : List Json} (_ : SameItems xs ys) (_ : LoadableItems ys),
    LoadableItems xs
  | [], _, _, _ => trivial
  | _ :: _, _ :: _, same, h => ⟨.of_sameData same.1 h.1, loadableItems_of_same same.2 h.2⟩

theorem loadableMembers_of_same : ∀ {xs ys : List (String × Json)} (_ : SameMembers xs ys)
    (_ : LoadableMembers ys), LoadableMembers xs
  | [], _, _, _ => trivial
  | _ :: _, _ :: _, same, h => ⟨.of_sameData same.2.1 h.1, loadableMembers_of_same same.2.2 h.2⟩

end

/-! ## The form of a schema -/

theorem keys_namedForms (layout : Layout) : ∀ members : Members,
    Entries.keys (namedForms layout members) = Entries.keys members
  | [] => rfl
  | (_, _) :: rest => by
    rw [namedForms, Entries.keys_cons, Entries.keys_cons, keys_namedForms layout rest]

mutual

/-- The form of a schema can be loaded if the schema can. -/
theorem Loadable.nodeForm (layout : Layout) : ∀ {value : Json} (_ : value.Loadable),
    (value.nodeForm layout).Loadable
  | .null, h | .bool _, h | .int _, h | .float _, h | .str _, h | .arr _, h => h
  | .obj _, h => loadable_membersForm layout (nodeKind _) h

theorem loadable_nodeForms (layout : Layout) : ∀ {values : List Json} (_ : LoadableItems values),
    LoadableItems (nodeForms layout values)
  | [], _ => trivial
  | _ :: _, h => ⟨Loadable.nodeForm layout h.1, loadable_nodeForms layout h.2⟩

theorem Loadable.fieldForm (layout : Layout) : ∀ {value : Json} (_ : value.Loadable),
    (value.fieldForm layout).Loadable
  | .null, h | .bool _, h | .int _, h | .float _, h | .str _, h | .arr _, h => h
  | .obj _, h => loadable_membersForm layout (fieldKind _) h

theorem loadable_fieldForms (layout : Layout) : ∀ {values : List Json} (_ : LoadableItems values),
    LoadableItems (fieldForms layout values)
  | [], _ => trivial
  | _ :: _, h => ⟨Loadable.fieldForm layout h.1, loadable_fieldForms layout h.2⟩

theorem loadable_namedForms (layout : Layout) : ∀ {members : Members}
    (_ : LoadableMembers members), LoadableMembers (namedForms layout members)
  | [], _ => trivial
  | (_, _) :: _, h => ⟨Loadable.fieldForm layout h.1, loadable_namedForms layout h.2⟩

theorem loadable_membersForm (layout : Layout) (kind : SchemaKind) : ∀ {members : Members}
    (_ : (Json.obj members).Loadable), (Json.obj (membersForm layout kind members)).Loadable
  | [], h => h
  | (key, value) :: rest, h => by
    obtain ⟨distinct, first, others⟩ := h
    have tail : (Json.obj rest).Loadable := ⟨(List.nodup_cons.1 distinct).2, others⟩
    refine ⟨?_, loadable_memberForm layout kind key first, (loadable_membersForm layout kind tail).2⟩
    rwa [Entries.Distinct, keys_membersForm]

theorem loadable_memberForm (layout : Layout) (kind : SchemaKind) (key : String) :
    ∀ {value : Json} (_ : value.Loadable), (memberForm layout kind key value).Loadable
  | .null, h | .bool _, h | .int _, h | .float _, h => h
  | .str text, h => by
    unfold memberForm
    split <;> trivial
  | .arr values, h => by
    unfold memberForm
    split
    · have items := loadable_arr_iff.1 (loadable_nodeForms layout h)
      exact loadable_arr_iff.2 fun item member =>
        items item ((perm_middleSorted isReference _).subset member)
    · exact loadable_fieldForms layout h
    · exact loadable_fieldForms layout h
    · exact h
  | .obj members, h => by
    unfold memberForm
    split
    · refine ⟨?_, loadable_namedForms layout h.2⟩
      rw [Entries.Distinct, keys_namedForms]
      exact h.1
    · exact loadable_membersForm layout (fieldKind members) h
    · exact loadable_membersForm layout (fieldKind members) h
    · exact loadable_membersForm layout (fieldKind members) h
    · exact loadable_membersForm layout (fieldKind members) h
    · exact h

end

end Json

end SchemaBundle
