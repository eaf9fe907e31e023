import Athomux.Pre.Layout

/-!
# Access through a table

The brick that uses a type and the one that defines it parse their definitions on their own. They
agree about a field where its slot is its own.
-/

namespace Athomux.Pre

variable {sizeof md5 : String → Nat} {deny deny' : Bool} {st st' : Parse} {items : List Item}
  {fs fs' : Fields} {f f' : Field} {n : String}

/-! ## Parsing the same definition twice -/

theorem parseItems_append (is js : List Item) :
    parseItems sizeof deny st (is ++ js) =
      (parseItems sizeof deny st is).bind fun st => parseItems sizeof deny st js := by
  induction is generalizing st with
  | nil => rfl
  | cons i is ih =>
    rw [List.cons_append, parseItems, parseItems, Option.bind_assoc]
    congr 1
    funext st
    exact ih

mutual

theorem undeny_item : ∀ {st st' : Parse} (i : Item), parseItem sizeof deny st i = some st' →
    parseItem sizeof false st i = some st'
  | _, _, .field _ _ _, hp => by
    simp only [parseItem, addField] at hp ⊢
    split at hp
    · cases hp
    · exact hp
  | _, _, .variant _ items, hp => by
    obtain ⟨sub, hsub, hp⟩ := Option.bind_eq_some_iff.mp hp
    rw [parseItem, undeny_items items hsub]
    exact hp
  | _, _, .select _, hp => hp

theorem undeny_items : ∀ {st st' : Parse} (is : List Item),
    parseItems sizeof deny st is = some st' → parseItems sizeof false st is = some st'
  | _, _, [], hp => hp
  | _, _, i :: is, hp => by
    obtain ⟨mid, hmid, hp⟩ := Option.bind_eq_some_iff.mp hp
    rw [parseItems, undeny_item i hmid]
    exact undeny_items is hp

end

/-- A field of `st`, or the one that is added at its end. -/
def EndsWith (sizeof : String → Nat) (st : Parse) (n : String) (f : Field) : Prop :=
  n = "LASTFIELD" ∧ f = ⟨st.new, sizeof "struct empty", "struct empty", []⟩ ∨
    n ≠ "LASTFIELD" ∧ st.fields.lookup n = some f

theorem endsWith_unique (h : EndsWith sizeof st n f) (h' : EndsWith sizeof st n f') : f = f' := by
  rcases h with ⟨hn, rfl⟩ | ⟨hn, h⟩ <;> rcases h' with ⟨hn', rfl⟩ | ⟨hn', h'⟩
  · rfl
  · exact absurd hn hn'
  · exact absurd hn' hn
  · exact Option.some.inj (h.symm.trans h')

theorem endsWith_lastField (hp : parseItems sizeof deny st [lastField] = some st')
    (hf : st'.fields.lookup n = some f) : EndsWith sizeof st n f := by
  simp only [parseItems, lastField, parseItem, addField, Option.isSome_none, Bool.false_eq_true,
    and_false, if_false, placeOf, Option.bind_some, Option.bind_fun_some] at hp
  split at hp
  · cases hp
  · obtain rfl := Option.some.inj hp
    by_cases hn : n = "LASTFIELD"
    · subst hn
      rw [AList.lookup_insert] at hf
      exact .inl ⟨rfl, (Option.some.inj hf).symm⟩
    · rw [AList.lookup_insert_ne hn] at hf
      exact .inr ⟨hn, hf⟩

/-- With or without a selection at the end, the fields are those of the items in front of it. -/
theorem parseTypedef_endsWith {cmds : List (Bool × List String)}
    (hp : parseTypedef sizeof deny items = some fs ∨
      parseTypedef sizeof deny (items ++ [.select cmds]) = some fs) :
    ∃ st, parseItems sizeof false (.start 0) items = some st ∧
      ∀ n f, fs.lookup n = some f → EndsWith sizeof st n f := by
  rcases hp with hp | hp
  · obtain ⟨st', hst', rfl⟩ := Option.map_eq_some_iff.mp hp
    rw [parseItems_append] at hst'
    obtain ⟨st, hst, hlast⟩ := Option.bind_eq_some_iff.mp hst'
    exact ⟨st, undeny_items _ hst, fun n f hf => endsWith_lastField hlast hf⟩
  · obtain ⟨st', hst', rfl⟩ := Option.map_eq_some_iff.mp hp
    rw [List.append_assoc, parseItems_append] at hst'
    obtain ⟨st, hst, hrest⟩ := Option.bind_eq_some_iff.mp hst'
    refine ⟨st, undeny_items _ hst, fun n f hf => ?_⟩
    have hend : EndsWith sizeof (st.select cmds) n f := endsWith_lastField hrest hf
    rcases hend with h | ⟨hn, h⟩
    · exact .inl h
    · exact .inr ⟨hn, lookup_select h⟩

/-- The items without a selection at the end. -/
def core (items : List Item) : List Item :=
  match items.getLast? with
  | some (.select _) => items.dropLast
  | _ => items

theorem typeFor_endsWith {label : Option (List String)}
    (h : typeFor sizeof deny items label = some fs) :
    ∃ st, parseItems sizeof false (.start 0) (core items) = some st ∧
      ∀ n f, fs.lookup n = some f → EndsWith sizeof st n f := by
  by_cases hsel : ∃ cmds, items.getLast? = some (.select cmds)
  · obtain ⟨cmds, hlast⟩ := hsel
    have hitems : items.dropLast ++ [.select cmds] = items :=
      List.dropLast_append_getLast? _ hlast
    have hcore : core items = items.dropLast := by rw [core, hlast]
    rw [hcore]
    cases label with
    | none =>
      rw [typeFor, ← hitems] at h
      exact parseTypedef_endsWith (.inr h)
    | some l =>
      rw [typeFor, withLabel, hlast] at h
      exact parseTypedef_endsWith (.inr h)
  · have hcore : core items = items := by
      unfold core
      split
      · rename_i cmds hlast
        exact absurd ⟨cmds, hlast⟩ hsel
      · rfl
    rw [hcore]
    cases label with
    | none =>
      have hor : _ ∨ parseTypedef sizeof deny (items ++ [.select []]) = some fs := .inl h
      exact parseTypedef_endsWith hor
    | some l =>
      rw [typeFor, withLabel] at h
      split at h
      · rename_i cmds hlast
        exact absurd ⟨cmds, hlast⟩ hsel
      · exact parseTypedef_endsWith (.inr h)

/-- A field that is still there with a label is the same. -/
theorem typeFor_unique {l l' : Option (List String)} (h : typeFor sizeof deny items l = some fs)
    (h' : typeFor sizeof deny' items l' = some fs') (hf : fs.lookup n = some f)
    (hf' : fs'.lookup n = some f') : f = f' := by
  obtain ⟨st, hst, hfs⟩ := typeFor_endsWith h
  obtain ⟨st', hst', hfs'⟩ := typeFor_endsWith h'
  obtain rfl := Option.some.inj (hst.symm.trans hst')
  exact endsWith_unique (hfs n f hf) (hfs' n f' hf')

/-! ## The slots -/

def SlotsDistinct (md5 : String → Nat) (fs : Fields) : Prop :=
  ∀ n ∈ fs.keys, ∀ m ∈ fs.keys, n ≠ m → typeHash md5 n ≠ typeHash md5 m

theorem tableAt_eq (hslots : SlotsDistinct md5 fs) (hf : fs.lookup n = some f)
    {order : List (Sigma fun _ : String => Field)} (horder : order.Perm fs.entries) :
    tableAt md5 order (typeHash md5 n) = some f := by
  have hmem : (⟨n, f⟩ : Sigma fun _ : String => Field) ∈ order :=
    horder.mem_iff.mpr (AList.mem_lookup_iff.mp hf)
  unfold tableAt
  cases hlast : (order.filter fun e => typeHash md5 e.1 = typeHash md5 n).getLast? with
  | none =>
    rw [List.getLast?_eq_none_iff, List.filter_eq_nil_iff] at hlast
    exact absurd (decide_eq_true rfl) (hlast _ hmem)
  | some e =>
    obtain ⟨heorder, he⟩ := List.mem_filter.mp (List.mem_of_getLast? hlast)
    have hentry := horder.mem_iff.mp heorder
    have hkey : e.1 = n := by
      by_contra hne
      refine hslots e.1 ?_ n ?_ hne (of_decide_eq_true he)
      · exact List.mem_map_of_mem hentry
      · exact AList.mem_keys.mp (AList.lookup_isSome.mp (by rw [hf]; rfl))
    obtain ⟨_, f'⟩ := e
    subst hkey
    exact (AList.mem_lookup_iff.mpr hentry).symm.trans hf

theorem isnotSubtype_eq_none {t₁ t₂ : Fields} (h : isnotSubtype t₁ t₂ = none) {f : Field}
    (hf : t₁.lookup n = some f) : ∃ f', t₂.lookup n = some f' ∧ f.type = f'.type := by
  have hall := List.find?_eq_none.mp (Option.map_eq_none_iff.mp h) _ (AList.mem_lookup_iff.mp hf)
  cases hf' : t₂.lookup n with
  | none => simp [hf'] at hall
  | some f' => exact ⟨f', rfl, by simpa [hf'] using hall⟩

/-! ## The types of two bricks -/

/-- What the tables of a type are for. -/
structure Sound (sizeof md5 : String → Nat) (items : List Item) (fs : Fields) : Prop where
  access : ∀ uses us, parseTypedef sizeof true uses = some us → isnotSubtype us fs = none →
    ∀ n ∈ us.keys, ∃ a, ownAccess sizeof items none n = some a ∧
      (∀ l b, ownAccess sizeof items l n = some b → b = a) ∧
      ∀ order, order.Perm fs.entries → userAccess sizeof md5 order uses none n = some a ∧
        ∀ l b, userAccess sizeof md5 order uses l n = some b → b = a
  slots : ∀ n ∈ fs.keys, ∀ m ∈ fs.keys, n ≠ m → typeHash md5 n ≠ typeHash md5 m
  overlap : ∀ n m f g, n ≠ m → fs.lookup n = some f → fs.lookup m = some g → Overlap f g →
    Alternative f.path g.path

/-- No explicit offset puts a field over another one. -/
def OffsetsApart (items : List Item) (fs : Fields) : Prop :=
  hasOffsets items → ∀ n m f g, n ≠ m → fs.lookup n = some f → fs.lookup m = some g →
    Overlap f g → Alternative f.path g.path

theorem access_ok {uses : List Item} {us : Fields} (hp : parseTypedef sizeof false items = some fs)
    (hslots : SlotsDistinct md5 fs) (hu : parseTypedef sizeof true uses = some us)
    (hsub : isnotSubtype us fs = none) (hn : n ∈ us.keys) :
    ∃ a, ownAccess sizeof items none n = some a ∧
      (∀ l b, ownAccess sizeof items l n = some b → b = a) ∧
      ∀ order, order.Perm fs.entries → userAccess sizeof md5 order uses none n = some a ∧
        ∀ l b, userAccess sizeof md5 order uses l n = some b → b = a := by
  obtain ⟨u, hfield⟩ := Option.isSome_iff_exists.mp (AList.lookup_isSome.mpr (AList.mem_keys.mpr hn))
  obtain ⟨f, hf, htype⟩ := isnotSubtype_eq_none hsub hfield
  have hp' : typeFor sizeof false items none = some fs := hp
  have hu' : typeFor sizeof true uses none = some us := hu
  refine ⟨(f.offset, sizeof f.type), ?_, fun l b hb => ?_, fun order horder => ⟨?_, ?_⟩⟩
  · rw [ownAccess, typeFor, hp, Option.bind_some, hf, Option.map_some]
  · obtain ⟨f', hf', rfl⟩ := Option.map_eq_some_iff.mp hb
    obtain ⟨fs', hfs', hf'⟩ := Option.bind_eq_some_iff.mp hf'
    rw [typeFor_unique hfs' hp' hf' hf]
  · rw [userAccess, typeFor, hu, Option.bind_some, hfield, Option.bind_some,
      tableAt_eq hslots hf horder, Option.map_some, htype]
  · intro l b hb
    obtain ⟨u', hl, hb⟩ := Option.bind_eq_some_iff.mp hb
    obtain ⟨us', hus', hl⟩ := Option.bind_eq_some_iff.mp hl
    rw [tableAt_eq hslots hf horder, Option.map_some] at hb
    rw [← Option.some.inj hb, typeFor_unique hus' hu' hl hfield, htype]

/-- **The tables are right exactly where no two names share a slot.** Explicit offsets must not put
fields over each other, too. -/
theorem types_sound (hp : parseTypedef sizeof false items = some fs) :
    Sound sizeof md5 items fs ↔ SlotsDistinct md5 fs ∧ OffsetsApart items fs := by
  constructor
  · intro h
    exact ⟨h.slots, fun _ => h.overlap⟩
  · rintro ⟨hslots, hoff⟩
    refine ⟨fun uses us hu hsub n hn => access_ok hp hslots hu hsub hn, hslots, ?_⟩
    intro n m f g hne hf hg hover
    cases hplain : hasOffsets items with
    | true => exact hoff hplain n m f g hne hf hg hover
    | false => exact overlap_alternative hplain hp hne hf hg hover

/-- The sizes of some C types, and the first bytes of `md5` of some names. -/
def sizeofEx (type : String) : Nat := if type = "int" then 4 else 0

def md5Ex (name : String) : Nat :=
  if name = "a" then 12 else if name = "k" then 140 else if name = "b" then 146 else 188

theorem types_sound_variants : ∃ fs,
    parseTypedef sizeofEx false
      [.variant "x" [.field "int" "a" none], .variant "y" [.field "int" "b" none]] = some fs ∧
    Sound sizeofEx md5Ex
      [.variant "x" [.field "int" "a" none], .variant "y" [.field "int" "b" none]] fs := by
  obtain ⟨fs, hfs⟩ : ∃ fs, parseTypedef sizeofEx false
      [.variant "x" [.field "int" "a" none], .variant "y" [.field "int" "b" none]] = some fs :=
    Option.isSome_iff_exists.mp (by decide +kernel)
  have hkeys : (parseTypedef sizeofEx false [.variant "x" [.field "int" "a" none],
      .variant "y" [.field "int" "b" none]]).map (·.keys) = some ["LASTFIELD", "b", "a"] := by
    decide +kernel
  rw [hfs, Option.map_some, Option.some.injEq] at hkeys
  refine ⟨fs, hfs, (types_sound hfs).mpr ⟨?_, fun h => absurd h (by decide)⟩⟩
  unfold SlotsDistinct
  rw [hkeys]
  decide

/-- `a` and `k` have the same slot. -/
theorem slots_collide : ∃ fs,
    parseTypedef sizeofEx false [.field "int" "a" none, .field "int" "k" none] = some fs ∧
    ownAccess sizeofEx [.field "int" "a" none, .field "int" "k" none] none "k" = some (4, 4) ∧
    userAccess sizeofEx md5Ex fs.entries [.field "int" "k" none] none "k" = some (0, 4) ∧
    ¬ Sound sizeofEx md5Ex [.field "int" "a" none, .field "int" "k" none] fs := by
  obtain ⟨fs, hfs⟩ : ∃ fs, parseTypedef sizeofEx false
      [.field "int" "a" none, .field "int" "k" none] = some fs :=
    Option.isSome_iff_exists.mp (by decide +kernel)
  have hkeys : (parseTypedef sizeofEx false [.field "int" "a" none, .field "int" "k" none]).map
      (fun fs => (fs.keys, userAccess sizeofEx md5Ex fs.entries [.field "int" "k" none] none "k")) =
        some (["LASTFIELD", "k", "a"], some (0, 4)) := by
    decide +kernel
  rw [hfs, Option.map_some, Option.some.injEq, Prod.mk.injEq] at hkeys
  refine ⟨fs, hfs, by decide +kernel, hkeys.2, fun h => ?_⟩
  have hslots := h.slots
  rw [hkeys.1] at hslots
  exact hslots "a" (by decide) "k" (by decide) (by decide) (by decide)

end Athomux.Pre
