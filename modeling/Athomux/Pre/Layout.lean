import Athomux.Pre.Types

/-!
# Where the fields are

Fields without an explicit offset follow each other, and the variants of a group start at the same
place. So only fields of different variants can overlap.
-/

namespace Athomux.Pre

variable {sizeof : String → Nat} {deny : Bool} {st st' sub : Parse} {base : Int} {label : String}
  {f g : Field} {n m : String}

def Field.stop (f : Field) : Int := f.offset + f.len

def Overlap (f g : Field) : Prop := f.offset < g.stop ∧ g.offset < f.stop

/-- Two fields of different variants of the same group. -/
def Alternative (p q : Path) : Prop :=
  ∃ pre grp l l' p' q', l ≠ l' ∧ p = pre ++ (grp, l) :: p' ∧ q = pre ++ (grp, l') :: q'

theorem Alternative.symm {p q : Path} (h : Alternative p q) : Alternative q p := by
  obtain ⟨pre, grp, l, l', p', q', hne, hp, hq⟩ := h
  exact ⟨pre, grp, l', l, q', p', hne.symm, hq, hp⟩

theorem Alternative.cons {p q : Path} (h : Alternative p q) (v : Nat × String) :
    Alternative (v :: p) (v :: q) := by
  obtain ⟨pre, grp, l, l', p', q', hne, rfl, rfl⟩ := h
  exact ⟨v :: pre, grp, l, l', p', q', hne, rfl, rfl⟩

mutual

def Item.hasOffset : Item → Bool
  | .field _ _ place => place.isSome
  | .variant _ items => hasOffsets items
  | .select _ => false

def hasOffsets : List Item → Bool
  | [] => false
  | i :: is => i.hasOffset || hasOffsets is

end

theorem hasOffsets_append (is js : List Item) :
    hasOffsets (is ++ js) = (hasOffsets is || hasOffsets js) := by
  induction is with
  | nil => rfl
  | cons i is ih => rw [List.cons_append, hasOffsets, hasOffsets, ih, Bool.or_assoc]

/-! ## The hash -/

theorem lookup_mergeFields (h : (mergeFields st label sub).lookup n = some f) :
    (∃ f₀, sub.fields.lookup n = some f₀ ∧ f = { f₀ with path := (st.group, label) :: f₀.path }) ∨
      st.fields.lookup n = some f := by
  have hfold : ∀ (l : List (Sigma fun _ : String => Field)) (fs : Fields),
      (l.foldl (fun fs e => fs.insert e.1 { e.2 with path := (st.group, label) :: e.2.path })
        fs).lookup n = some f →
      (∃ e ∈ l, e.1 = n ∧ f = { e.2 with path := (st.group, label) :: e.2.path }) ∨
        fs.lookup n = some f := by
    intro l
    induction l with
    | nil => exact fun fs h => .inr h
    | cons e l ih =>
      intro fs h
      rcases ih _ h with ⟨e', he', hn, hf⟩ | hfs
      · exact .inl ⟨e', List.mem_cons_of_mem _ he', hn, hf⟩
      · by_cases hn : n = e.1
        · subst hn
          rw [AList.lookup_insert] at hfs
          exact .inl ⟨e, List.mem_cons_self, rfl, (Option.some.inj hfs).symm⟩
        · rw [AList.lookup_insert_ne hn] at hfs
          exact .inr hfs
  rcases hfold _ _ h with ⟨⟨_, f₀⟩, he, rfl, hf⟩ | hfs
  · exact .inl ⟨f₀, AList.mem_lookup_iff.mpr he, hf⟩
  · exact .inr hfs

theorem mem_mergeLabels {l : List String} (h : l ∈ st.labels) : l ∈ mergeLabels st label sub := by
  have hfold : ∀ (es : List (Sigma fun _ : List String => List String)) (ls : Labels), l ∈ ls →
      l ∈ es.foldl (fun ls e => ls.insert (label :: e.1) e.2) ls := by
    intro es
    induction es with
    | nil => exact fun ls h => h
    | cons e es ih => exact fun ls h => ih _ ((AList.mem_insert _).mpr (.inr h))
  exact (AList.mem_insert _).mpr (.inr (hfold _ _ h))

theorem label_mem_mergeLabels : [label] ∈ mergeLabels st label sub :=
  (AList.mem_insert _).mpr (.inl rfl)

theorem lookup_of_erase {fs : Fields} (h : (fs.erase m).lookup n = some f) :
    fs.lookup n = some f := by
  by_cases hn : n = m
  · subst hn
    rw [AList.lookup_erase] at h
    cases h
  · rwa [AList.lookup_erase_ne hn] at h

/-- A selection only takes fields away. -/
theorem lookup_select {cmds : List (Bool × List String)}
    (h : (st.select cmds).fields.lookup n = some f) : st.fields.lookup n = some f := by
  have hnames : ∀ (ns : List String) (fs : Fields),
      (ns.foldl (fun fs n => fs.erase n) fs).lookup n = some f → fs.lookup n = some f := by
    intro ns
    induction ns with
    | nil => exact fun fs h => h
    | cons m ns ih => exact fun fs h => lookup_of_erase (ih _ h)
  have hfold : ∀ (es : List (List String × List String)) (fs : Fields),
      (es.foldl (fun fs e => e.2.foldl (fun fs n => fs.erase n) fs) fs).lookup n = some f →
        fs.lookup n = some f := by
    intro es
    induction es with
    | nil => exact fun fs h => h
    | cons e es ih => exact fun fs h => hnames _ _ (ih _ h)
  exact hfold _ _ h

/-! ## The layout -/

/-- Where a field of the current group is, or one that is done with. -/
def InPlace (st : Parse) (f : Field) : Prop :=
  f.stop ≤ st.last ∨
    ∃ l p, f.path = (st.group, l) :: p ∧ st.last ≤ f.offset ∧ [l] ∈ st.labels

structure Layout (base : Int) (st : Parse) : Prop where
  base_le : base ≤ st.last
  last_le : st.last ≤ st.new
  new_le : st.new ≤ st.last + st.sel
  bounds : ∀ n f, st.fields.lookup n = some f → base ≤ f.offset ∧ f.stop ≤ st.new
  inPlace : ∀ n f, st.fields.lookup n = some f → InPlace st f
  apart : ∀ n m f g, n ≠ m → st.fields.lookup n = some f → st.fields.lookup m = some g →
    Overlap f g → Alternative f.path g.path

theorem Layout.start (base : Int) : Layout base (.start base) :=
  ⟨Int.le_refl _, Int.le_refl _, (by simp [Parse.start]), fun _ _ h => (by cases h), fun _ _ h => (by cases h),
    fun _ _ _ _ _ h => (by cases h)⟩

theorem Layout.addField {type name : String} (h : Layout base st)
    (hadd : addField sizeof deny st type name none = some st') : Layout base st' := by
  simp only [Pre.addField, Option.isSome_none, Bool.false_eq_true, and_false, if_false, placeOf,
    Option.bind_some] at hadd
  split at hadd
  · cases hadd
  · rename_i hname
    obtain rfl := Option.some.inj hadd
    have hbase := h.base_le
    have hlast := h.last_le
    have hnew := h.new_le
    have hcase : ∀ n f, (st.fields.insert name ⟨st.new, sizeof type, type, []⟩).lookup n = some f →
        f = ⟨st.new, sizeof type, type, []⟩ ∧ n = name ∨ st.fields.lookup n = some f := by
      intro n f hf
      by_cases hn : n = name
      · subst hn
        rw [AList.lookup_insert] at hf
        exact .inl ⟨(Option.some.inj hf).symm, rfl⟩
      · rw [AList.lookup_insert_ne hn] at hf
        exact .inr hf
    refine ⟨by simp only; omega, Int.le_refl _, by simp only; omega, fun n f hf => ?_,
      fun n f hf => .inl ?_, ?_⟩
    · rcases hcase n f hf with ⟨rfl, -⟩ | hf
      · simp only [Field.stop]
        omega
      · have := h.bounds n f hf
        simp only
        omega
    · rcases hcase n f hf with ⟨rfl, -⟩ | hf
      · exact Int.le_refl _
      · have := h.bounds n f hf
        simp only
        omega
    · intro n m f g hne hf hg hover
      unfold Overlap at hover
      rcases hcase n f hf with ⟨rfl, rfl⟩ | hf' <;>
        rcases hcase m g hg with ⟨rfl, rfl⟩ | hg'
      · exact absurd rfl hne
      · have := h.bounds m g hg'
        simp only at hover
        omega
      · have := h.bounds n f hf'
        simp only at hover
        omega
      · exact h.apart n m f g hne hf' hg' hover

theorem Layout.select (h : Layout base st) (cmds : List (Bool × List String)) :
    Layout base (st.select cmds) := by
  have hbase := h.base_le
  have hlast := h.last_le
  have hnew := h.new_le
  refine ⟨Int.le_trans hbase hlast, Int.le_refl _, ?_, fun n f hf => h.bounds n f (lookup_select hf),
    fun n f hf => .inl (h.bounds n f (lookup_select hf)).2, fun n m f g hne hf hg => ?_⟩
  · simp only [Parse.select]
    omega
  · exact h.apart n m f g hne (lookup_select hf) (lookup_select hg)

theorem Layout.addVariant (h : Layout base st) (hsub : Layout st.last sub)
    (hadd : addVariant st label sub = some st') : Layout base st' := by
  unfold Pre.addVariant at hadd
  split at hadd
  · cases hadd
  · rename_i hfree
    obtain rfl := Option.some.inj hadd
    have hlabel : [label] ∉ st.labels := fun hl => hfree (.inl hl)
    have hbase := h.base_le
    have hlast := h.last_le
    have hnew := h.new_le
    have hstart := hsub.base_le
    have hend := hsub.last_le
    have hcase : ∀ n f, (mergeFields st label sub).lookup n = some f →
        (∃ f₀, sub.fields.lookup n = some f₀ ∧ f = { f₀ with path := (st.group, label) :: f₀.path })
          ∨ st.fields.lookup n = some f := fun n f hf => lookup_mergeFields hf
    -- a field that is done with is in front of the group, one of the group has another label
    have hacross : ∀ n m f g, sub.fields.lookup n = some f → st.fields.lookup m = some g →
        Overlap f g → Alternative ((st.group, label) :: f.path) g.path := by
      intro n m f g hf hg hover
      unfold Overlap at hover
      have hbound := (hsub.bounds n f hf).1
      rcases h.inPlace m g hg with hdone | ⟨l, p, hp, -, hl⟩
      · omega
      · have hne : label ≠ l := fun heq => hlabel (heq ▸ hl)
        exact ⟨[], st.group, label, l, f.path, p, hne, rfl, hp⟩
    refine ⟨hbase, by simp only; omega, by simp only; omega, fun n f hf => ?_,
      fun n f hf => ?_, ?_⟩
    · rcases hcase n f hf with ⟨f₀, hf₀, rfl⟩ | hf
      · have := hsub.bounds n f₀ hf₀
        simp only [Field.stop] at this ⊢
        omega
      · have := h.bounds n f hf
        simp only
        omega
    · rcases hcase n f hf with ⟨f₀, hf₀, rfl⟩ | hf
      · exact .inr ⟨label, f₀.path, rfl, (hsub.bounds n f₀ hf₀).1, label_mem_mergeLabels⟩
      · rcases h.inPlace n f hf with hdone | ⟨l, p, hp, hoff, hl⟩
        · exact .inl hdone
        · exact .inr ⟨l, p, hp, hoff, mem_mergeLabels hl⟩
    · intro n m f g hne hf hg hover
      rcases hcase n f hf with ⟨f₀, hf₀, rfl⟩ | hf <;>
        rcases hcase m g hg with ⟨g₀, hg₀, rfl⟩ | hg
      · exact (hsub.apart n m f₀ g₀ hne hf₀ hg₀ hover).cons _
      · exact hacross n m f₀ g hf₀ hg hover
      · exact (hacross m n g₀ f hg₀ hf hover.symm).symm
      · exact h.apart n m f g hne hf hg hover

mutual

theorem layout_item : ∀ {base : Int} {st st' : Parse} (i : Item), Layout base st →
    i.hasOffset = false → parseItem sizeof deny st i = some st' → Layout base st'
  | _, _, _, .field _ _ none, h, _, hp => h.addField hp
  | _, _, _, .field _ _ (some _), _, hi, _ => by simp [Item.hasOffset] at hi
  | _, st, _, .variant _ items, h, hi, hp => by
    obtain ⟨sub, hsub, hp⟩ := Option.bind_eq_some_iff.mp hp
    exact h.addVariant (layout_items items (Layout.start st.last) hi hsub) hp
  | _, _, _, .select cmds, h, _, hp => Option.some.inj hp ▸ h.select cmds

/-- Without explicit offsets the layout is kept. -/
theorem layout_items : ∀ {base : Int} {st st' : Parse} (is : List Item), Layout base st →
    hasOffsets is = false → parseItems sizeof deny st is = some st' → Layout base st'
  | _, _, _, [], h, _, hp => Option.some.inj hp ▸ h
  | _, _, _, i :: is, h, hi, hp => by
    obtain ⟨hi, his⟩ := Bool.or_eq_false_iff.mp hi
    obtain ⟨mid, hmid, hp⟩ := Option.bind_eq_some_iff.mp hp
    exact layout_items is (layout_item i h hi hmid) his hp

end

/-- So fields overlap only as variants of each other. -/
theorem overlap_alternative {items : List Item} {fs : Fields} (hplain : hasOffsets items = false)
    (hp : parseTypedef sizeof deny items = some fs) (hne : n ≠ m) (hf : fs.lookup n = some f)
    (hg : fs.lookup m = some g) (hover : Overlap f g) : Alternative f.path g.path := by
  obtain ⟨st, hst, rfl⟩ := Option.map_eq_some_iff.mp hp
  have hall : hasOffsets (items ++ [lastField]) = false := by
    rw [hasOffsets_append, hplain]
    rfl
  exact (layout_items _ (Layout.start 0) hall hst).apart n m f g hne hf hg hover

end Athomux.Pre
