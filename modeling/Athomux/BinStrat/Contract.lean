import Athomux.BinStrat.RoundTrip
import Athomux.BinStrat.Shape
import Mathlib.Data.List.TakeWhile

/-!
# The contract of the conversions

`binstrat.h` wants a conversion to stay inside the buffer, to charge the size with
what it has written, and to leave the cursors alone on failure. Only the last is
kept: the headers of most records are never charged.
-/

namespace Athomux.BinStrat

open Conv

variable {α β : Type}

/-- The call of a conversion: the result and the caller's cursors afterwards. -/
def Conv.call (m : Conv α) (c : Cursor) : Bool × Cursor :=
  match (m.run c).1 with
  | some (_, c') => (true, c')
  | none => (false, c)

/-- What `binstrat.h` says about a call. -/
structure Contract (m : Conv α) (c : Cursor) : Prop where
  inside : ∀ s ∈ (m.run c).2, c.bin ≤ s.addr ∧ s.addr + s.len ≤ c.bin + c.size
  success : (m.call c).1 = true →
    c.bin ≤ (m.call c).2.bin ∧ (m.call c).2.size + ((m.call c).2.bin - c.bin) = c.size
  failure : (m.call c).1 = false → (m.call c).2 = c

/-! ## Following a shape -/

namespace Shape

/-- A shape at `b` stays in front of `e`. -/
def Fits (s : Shape) (b e : Nat) : Prop := s.reach = 0 ∨ b + s.reach ≤ e

theorem fits_andThen {s : Shape} {f : Landing → Shape} {b e : Nat} :
    (s.andThen f).Fits b e ↔ s.Fits b e ∧ ∀ l, s.next = some l → (f l).Fits b e := by
  unfold andThen Fits
  cases h : s.next with
  | none => simp
  | some l =>
    simp only [Option.some.injEq, forall_eq']
    omega

theorem next_andThen_none {s : Shape} {f : Landing → Shape} (h : s.next = none) :
    s.andThen f = s := by
  simp [andThen, h]

theorem fits_shift {s : Shape} {b off e : Nat} : (s.shift off).Fits b e ↔ s.Fits (b + off) e := by
  unfold shift Fits
  simp only
  split
  · simp [*]
  · omega

@[simp] theorem fits_addExtra {n : Nat} {s : Shape} {b e : Nat} :
    (s.addExtra n).Fits b e ↔ s.Fits b e := Iff.rfl

end Shape

/-- Where a conversion stands after it: as the landing says, with the size that fits it. -/
def Lands (b off size : Nat) (P : α → Prop) (o : Option (α × Cursor)) (next : Option Landing) : Prop :=
  match next with
  | none => o = none
  | some l => ∃ a size', o = some (a, ⟨l.rest, b + l.off, size'⟩) ∧ P a ∧
      l.off + size' = off + size + l.extra ∧ size' < addrSpace

/-- The conversion of `text` at `off` behind the start `b` of its record stores up to the reach of
the shape. When that stays in front of `e`, it lands as the shape says. -/
structure Follows (b e off size : Nat) (m : Conv α) (text : Text) (s : Shape) (P : α → Prop) :
    Prop where
  inside : s.Fits b e → ∀ st ∈ (m.run ⟨text, b + off, size⟩).2, b ≤ st.addr ∧ st.addr + st.len ≤ e
  outside : ¬ s.Fits b e → ∃ st ∈ (m.run ⟨text, b + off, size⟩).2, e < st.addr + st.len
  lands : s.Fits b e → Lands b off size P (m.run ⟨text, b + off, size⟩).1 s.next

theorem bind_snd (m : Conv α) (f : α → Conv β) (c : Cursor) :
    ((m >>= f).run c).2 = (m.run c).2 ++
      match (m.run c).1 with
      | none => []
      | some (a, c') => ((f a).run c').2 := by
  show ((Conv.bind m f).run c).2 = _
  rcases h : m.run c with ⟨_ | ⟨a, c'⟩, stores⟩ <;> simp [Conv.bind, h]

namespace Follows

variable {b e off size n : Nat} {m : Conv α} {f : α → Conv β} {text : Text} {s t : Shape}
  {g : Landing → Shape} {P : α → Prop} {Q : β → Prop} {q : Text → List Char}

theorem bind (hm : Follows b e off size m text s P)
    (hf : ∀ l, s.next = some l → s.Fits b e → ∀ a size', P a →
      l.off + size' = off + size + l.extra → size' < addrSpace →
      Follows b e l.off size' (f a) l.rest (g l) Q) :
    Follows b e off size (m >>= f) text (s.andThen g) Q := by
  by_cases hfit : s.Fits b e
  · have hland := hm.lands hfit
    unfold Lands at hland
    cases hnext : s.next with
    | none =>
      rw [hnext] at hland
      rw [Shape.next_andThen_none hnext]
      have hstores : ((m >>= f).run ⟨text, b + off, size⟩).2 = (m.run ⟨text, b + off, size⟩).2 := by
        rw [bind_snd, hland, List.append_nil]
      refine ⟨fun h => ?_, fun h => absurd hfit h, fun _ => ?_⟩
      · rw [hstores]
        exact hm.inside h
      · rw [bind_fst, hland, hnext]
        rfl
    | some l =>
      rw [hnext] at hland
      obtain ⟨a, size', hrun, hP, hacc, hlt⟩ := hland
      have hin := hf l hnext hfit a size' hP hacc hlt
      have hstores : ((m >>= f).run ⟨text, b + off, size⟩).2 =
          (m.run ⟨text, b + off, size⟩).2 ++ ((f a).run ⟨l.rest, b + l.off, size'⟩).2 := by
        rw [bind_snd, hrun]
      have hfits : (s.andThen g).Fits b e ↔ (g l).Fits b e := by
        rw [Shape.fits_andThen]
        constructor
        · exact fun h => h.2 l hnext
        · intro h
          refine ⟨hfit, fun l' hl' => ?_⟩
          rw [hnext] at hl'
          cases hl'
          exact h
      refine ⟨fun h => ?_, fun h => ?_, fun h => ?_⟩
      · rw [hstores]
        intro st hst
        rcases List.mem_append.mp hst with hst | hst
        · exact hm.inside hfit st hst
        · exact hin.inside (hfits.mp h) st hst
      · obtain ⟨st, hst, hlt⟩ := hin.outside fun h' => h (hfits.mpr h')
        exact ⟨st, by rw [hstores]; exact List.mem_append_right _ hst, hlt⟩
      · have hl := hin.lands (hfits.mp h)
        rw [bind_fst, hrun]
        unfold Lands at hl ⊢
        simp only [Shape.andThen, hnext, Option.bind_some]
        cases hg : (g l).next with
        | none =>
          rw [hg] at hl
          exact hl
        | some l' =>
          rw [hg] at hl
          obtain ⟨a', size'', hrun', hQ, hacc', hlt'⟩ := hl
          refine ⟨a', size'', hrun', hQ, ?_, hlt'⟩
          show l'.off + size'' = off + size + (l.extra + l'.extra)
          omega
  · have hnot : ¬ (s.andThen g).Fits b e := fun h => hfit (Shape.fits_andThen.mp h).1
    refine ⟨fun h => absurd h hnot, fun _ => ?_, fun h => absurd h hnot⟩
    obtain ⟨st, hst, hlt⟩ := hm.outside hfit
    refine ⟨st, ?_, hlt⟩
    rw [bind_snd]
    exact List.mem_append_left _ hst

theorem mono (h : Follows b e off size m text s P) {R : α → Prop} (hPR : ∀ a, P a → R a) :
    Follows b e off size m text s R := by
  refine ⟨h.inside, h.outside, fun hfit => ?_⟩
  have hl := h.lands hfit
  unfold Lands at hl ⊢
  split at hl
  · exact hl
  · obtain ⟨a, size', hrun, hP, hacc⟩ := hl
    exact ⟨a, size', hrun, hPR a hP, hacc⟩

theorem congr (h : Follows b e off size m text s P) (hst : s = t) :
    Follows b e off size m text t P := hst ▸ h

/-- A step without a store. -/
theorem of_quiet {a : α} {rest : Text} {off' size' : Nat}
    (hrun : m.run ⟨text, b + off, size⟩ = (some (a, ⟨rest, b + off', size'⟩), []))
    (hacc : off' + size' = off + size) (hlt : size' < addrSpace) :
    Follows b e off size m text (.field 0 off' rest) (· = a) := by
  refine ⟨fun _ st hst => ?_, fun h => absurd (.inl rfl) h, fun _ => ?_⟩
  · rw [hrun] at hst
    cases hst
  · rw [hrun]
    exact ⟨a, size', rfl, rfl, hacc, hlt⟩

theorem field_zero_andThen {off : Nat} {rest : Text} :
    (Shape.field 0 off rest).andThen g = g ⟨off, 0, rest⟩ := by
  rcases h : g ⟨off, 0, rest⟩ with ⟨reach, next⟩
  cases next <;> simp [Shape.andThen, Shape.field, h]

theorem move {a : α} {rest : Text} {off' size' : Nat}
    (hrun : m.run ⟨text, b + off, size⟩ = (some (a, ⟨rest, b + off', size'⟩), []))
    (hacc : off' + size' = off + size) (hlt : size' < addrSpace)
    (hf : Follows b e off' size' (f a) rest t Q) : Follows b e off size (m >>= f) text t Q := by
  have h := bind (g := fun _ => t) (f := f) (of_quiet (e := e) hrun hacc hlt) (Q := Q) (by
    rintro l hl - a' size'' rfl hacc' -
    cases hl
    obtain rfl : size'' = size' := by simp only at hacc'; omega
    exact hf)
  rwa [field_zero_andThen] at h

theorem here {f : Nat → Conv β} (hlt : size < addrSpace)
    (hf : Follows b e off size (f (b + off)) text t Q) :
    Follows b e off size (Conv.here >>= f) text t Q :=
  move (m := Conv.here) rfl rfl hlt hf

theorem cursors {f : Cursor → Conv β} (hlt : size < addrSpace)
    (hf : Follows b e off size (f ⟨text, b + off, size⟩) text t Q) :
    Follows b e off size (Conv.cursors >>= f) text t Q :=
  move (m := Conv.cursors) rfl rfl hlt hf

theorem peek {f : Char → Conv β} (hlt : size < addrSpace)
    (hf : Follows b e off size (f (text.headD '\x00')) text t Q) :
    Follows b e off size (Conv.peek >>= f) text t Q :=
  move (m := Conv.peek) rfl rfl hlt hf

theorem scan {f : Unit → Conv β} {p : Text → Text} (hlt : size < addrSpace)
    (hf : Follows b e off size (f ()) (p text) t Q) :
    Follows b e off size (Conv.scan p q >>= f) text t Q :=
  move (m := Conv.scan p q) rfl rfl hlt hf

theorem accept_some {f : Bool → Conv β} {p : Text → Option Text} {rest : Text}
    (hlt : size < addrSpace) (hp : p text = some rest)
    (hf : Follows b e off size (f true) rest t Q) :
    Follows b e off size (Conv.accept p q >>= f) text t Q :=
  move (m := Conv.accept p q) (by simp [Conv.accept, Conv.onText, hp])
    rfl hlt hf

theorem accept_none {f : Bool → Conv β} {p : Text → Option Text} (hlt : size < addrSpace)
    (hp : p text = none) (hf : Follows b e off size (f false) text t Q) :
    Follows b e off size (Conv.accept p q >>= f) text t Q :=
  move (m := Conv.accept p q) (by simp [Conv.accept, Conv.onText, hp])
    rfl hlt hf

/-- A store to a field that lies where stores have been made before. -/
theorem covered {addr len : Nat} {f : Unit → Conv β} (hlt : size < addrSpace) (hb : b ≤ addr)
    (he : addr + len ≤ e) (hf : Follows b e off size (f ()) text t Q) :
    Follows b e off size (Conv.store addr len >>= f) text t Q := by
  have hm : Follows b e off size (Conv.store addr len) text (.field 0 off text) (fun _ => True) := by
    refine ⟨fun _ st hst => ?_, fun h => absurd (.inl rfl) h, fun _ => ?_⟩
    · cases List.mem_singleton.mp hst
      exact ⟨hb, he⟩
    · exact ⟨(), size, rfl, trivial, rfl, hlt⟩
  have h := bind (g := fun _ => t) (f := f) hm (Q := Q) (by
      rintro l hl - a' size' - hacc -
      cases hl
      obtain rfl : size' = size := by simpa using hacc
      exact hf)
  rwa [field_zero_andThen] at h

theorem pure {a : α} (hlt : size < addrSpace) (h : P a) :
    Follows b e off size (Pure.pure a : Conv α) text (.field 0 off text) P :=
  ⟨fun _ st hst => (by cases hst), fun h => absurd (.inl rfl) h,
    fun _ => ⟨a, size, rfl, h, rfl, hlt⟩⟩

theorem none_of_run (hrun : ∀ bin size, m.run ⟨text, bin, size⟩ = (none, [])) :
    Follows b e off size m text ⟨0, none⟩ P := by
  refine ⟨fun _ st hst => ?_, fun h => absurd (.inl rfl) h, fun _ => ?_⟩
  · rw [hrun] at hst
    cases hst
  · rw [hrun]
    rfl

/-- A store to a field of the record. -/
theorem field {o len : Nat} (hlen : 0 < len) (hlt : size < addrSpace) :
    Follows b e off size (Conv.store (b + o) len) text (.field (o + len) off text)
      (fun _ => True) := by
  refine ⟨fun h st hst => ?_, fun h => ?_, fun _ => ⟨(), size, rfl, trivial, rfl, hlt⟩⟩
  · cases List.mem_singleton.mp hst
    simp only [Shape.Fits, Shape.field] at h ⊢
    omega
  · refine ⟨_, List.mem_singleton.mpr rfl, ?_⟩
    simp only [Shape.Fits, Shape.field] at h ⊢
    omega

theorem onText {p : Text → Option (α × Text)} (hlt : size < addrSpace) :
    Follows b e off size (Conv.onText p q) text (.scan off ((p text).map Prod.snd))
      (fun a => ∃ rest, p text = some (a, rest)) := by
  refine ⟨fun _ st hst => (by cases hst), fun h => absurd (.inl rfl) h, fun _ => ?_⟩
  unfold Lands Shape.scan Conv.onText
  cases h : p text with
  | none => simp [h]
  | some r => exact ⟨r.1, size, by simp [h], ⟨r.2, rfl⟩, rfl, hlt⟩

theorem expect {p : Text → Option Text} (hlt : size < addrSpace) :
    Follows b e off size (Conv.expect p q) text (.scan off (p text)) (fun _ => True) := by
  have h := @onText _ b e off size text q (fun t => (p t).map ((), ·)) hlt
  simp only [Option.map_map] at h
  have hid : (p text).map (Prod.snd ∘ ((), ·)) = p text := by
    cases p text <;> rfl
  rw [hid] at h
  exact h.mono fun _ _ => trivial

theorem skipBin {f : Unit → Conv β}
    (hf : Follows b e (off + n) size (f ()) text t Q) :
    Follows b e off size (Conv.skipBin n >>= f) text (t.addExtra n) Q := by
  have hrun : (Conv.skipBin n >>= f).run ⟨text, b + off, size⟩ =
      (f ()).run ⟨text, b + (off + n), size⟩ := by
    refine Prod.ext ?_ ?_
    · rw [bind_fst]
      simp only [Conv.skipBin, Option.bind_some, Nat.add_assoc]
    · rw [bind_snd]
      simp only [Conv.skipBin, List.nil_append, Nat.add_assoc]
  refine ⟨fun h => hrun ▸ hf.inside h, fun h => hrun ▸ hf.outside h, fun h => ?_⟩
  have hl := hf.lands h
  rw [hrun]
  unfold Lands at hl ⊢
  simp only [Shape.addExtra]
  cases ht : t.next with
  | none =>
    rw [ht] at hl
    exact hl
  | some l =>
    rw [ht] at hl
    obtain ⟨a, size', hr, hQ, hacc, hlt'⟩ := hl
    refine ⟨a, size', hr, hQ, ?_, hlt'⟩
    show l.off + size' = off + size + (l.extra + n)
    omega

/-- A record behind the start of the one around it. -/
theorem rebase (h : Follows (b + off) e 0 size m text s P) :
    Follows b e off size m text (s.shift off) P := by
  refine ⟨fun hf st hst => ?_, fun hf => ?_, fun hf => ?_⟩
  · have := h.inside (Shape.fits_shift.mp hf) st hst
    omega
  · exact h.outside fun h' => hf (Shape.fits_shift.mpr h')
  · have hl := h.lands (Shape.fits_shift.mp hf)
    unfold Lands at hl ⊢
    simp only [Shape.shift]
    cases hs : s.next with
    | none =>
      rw [hs] at hl
      exact hl
    | some l =>
      rw [hs] at hl
      obtain ⟨a, size', hr, hP, hacc, hlt'⟩ := hl
      refine ⟨a, size', ?_, hP, ?_, hlt'⟩
      · rw [Nat.add_assoc b off l.off] at hr
        exact hr
      · show off + l.off + size' = off + size + l.extra
        omega

end Follows

/-! ## Words and strings -/

theorem wordLoop_stores (text : Text) : ∀ bin size, (wordLoop text bin size).2 =
    (List.range (min (text.takeWhile idTable).length size)).map fun i => ⟨bin + i, 1⟩ := by
  induction text with
  | nil => intro bin size; simp [wordLoop]
  | cons c text ih =>
    intro bin size
    unfold wordLoop
    cases hc : idTable c with
    | false => simp [hc]
    | true =>
      by_cases hs : size = 0
      · simp [hs]
      · have hmin : min ((c :: text).takeWhile idTable).length size =
            min (text.takeWhile idTable).length (size - 1) + 1 := by
          simp [hc]
          omega
        rw [hmin, List.range_succ_eq_map]
        simp only [if_true, hs, if_false, ih, List.map_cons, List.map_map, Nat.add_zero]
        refine congrArg _ (List.map_congr_left fun i _ => ?_)
        simp only [Function.comp_apply, Store.mk.injEq, and_true]
        omega

theorem stringLoop_stores (text : Text) : ∀ bin size, (stringLoop text bin size).2 =
    (List.range (min (text.takeWhile printable).length (size - 1))).map fun i => ⟨bin + i, 1⟩ := by
  induction text with
  | nil => intro bin size; simp [stringLoop]
  | cons c text ih =>
    intro bin size
    unfold stringLoop
    cases hc : printable c with
    | false => simp [hc]
    | true =>
      by_cases hs : size ≤ 1
      · have : size - 1 = 0 := by omega
        simp [hs, this]
      · have hmin : min ((c :: text).takeWhile printable).length (size - 1) =
            min (text.takeWhile printable).length (size - 1 - 1) + 1 := by
          simp [hc]
          omega
        rw [hmin, List.range_succ_eq_map]
        simp only [if_true, hs, if_false, ih, List.map_cons, List.map_map, Nat.add_zero]
        refine congrArg _ (List.map_congr_left fun i _ => ?_)
        simp only [Function.comp_apply, Store.mk.injEq, and_true]
        omega

theorem stops_dropWhile (table : Char → Bool) (h0 : table '\x00' = false) (text : Text) :
    Stops table (text.dropWhile table) := by
  induction text with
  | nil => exact h0
  | cons c text ih =>
    cases hc : table c with
    | true => simp [hc, ih]
    | false => simp [hc, Stops]

theorem wordLoop_done {text : Text} {bin size : Nat}
    (h : (text.takeWhile idTable).length ≤ size) : (wordLoop text bin size).1 =
      some (text.takeWhile idTable, ⟨text.dropWhile idTable,
        bin + (text.takeWhile idTable).length, size - (text.takeWhile idTable).length⟩) := by
  have := @wordLoop_eq (text.takeWhile idTable) _
    (fun c hc => List.mem_takeWhile_imp hc) (stops_dropWhile idTable (by decide) text) bin _ h
  rwa [List.takeWhile_append_dropWhile] at this

theorem stringLoop_done {text : Text} {bin size : Nat}
    (h : (text.takeWhile printable).length + 1 ≤ size) : (stringLoop text bin size).1 =
      some (text.takeWhile printable, ⟨text.dropWhile printable,
        bin + (text.takeWhile printable).length, size - (text.takeWhile printable).length⟩) := by
  have := @stringLoop_eq (text.takeWhile printable) _
    (fun c hc => List.mem_takeWhile_imp hc) (stops_dropWhile printable (by decide) text) bin _ h
  rwa [List.takeWhile_append_dropWhile] at this

theorem wordLoop_none (text : Text) : ∀ {bin size : Nat},
    size < (text.takeWhile idTable).length → (wordLoop text bin size).1 = none := by
  induction text with
  | nil => intro bin size h; simp at h
  | cons c text ih =>
    intro bin size h
    unfold wordLoop
    cases hc : idTable c with
    | false => simp [hc] at h
    | true =>
      by_cases hs : size = 0
      · simp [hs]
      · have hlt : size - 1 < (text.takeWhile idTable).length := by
          simp only [List.takeWhile_cons, hc, if_true, List.length_cons] at h
          omega
        simp [hs, ih hlt]

theorem takeWhile_eq_nil_iff {table : Char → Bool} (h0 : table '\x00' = false) (text : Text) :
    text.takeWhile table = [] ↔ table (text.headD '\x00') = false := by
  cases text with
  | nil => simp [h0]
  | cons c text => simp

theorem convertWord_stop {text : Text} (h : text.takeWhile idTable = []) (bin size : Nat) :
    convertWord.run ⟨text, bin, size⟩ = (none, []) := by
  have hhead := (takeWhile_eq_nil_iff (by decide) text).mp h
  refine Prod.ext ?_ ?_
  · unfold convertWord
    rw [bind_fst]
    simp only [lookUp, peek, Option.bind_some, hhead, Bool.not_false, if_true]
    rw [bind_fst]
    simp only [Conv.fail, Option.bind_none]
  · unfold convertWord
    rw [bind_snd]
    simp only [lookUp, peek, hhead, Bool.not_false, if_true, List.nil_append]
    rw [bind_snd]
    simp only [Conv.fail, List.append_nil]

/-- The stores and the outcome of `convert_word` at a word. -/
theorem convertWord_run {text : Text} (h : text.takeWhile idTable ≠ []) (bin size : Nat) :
    (convertWord.run ⟨text, bin, size⟩).2 =
      ((List.range (min (text.takeWhile idTable).length size)).map fun i => ⟨bin + i, 1⟩) ++
        (if (text.takeWhile idTable).length < size then
          [⟨bin + (text.takeWhile idTable).length, 1⟩] else []) ∧
    (convertWord.run ⟨text, bin, size⟩).1 =
      if (text.takeWhile idTable).length < size then
        some (text.takeWhile idTable, ⟨text.dropWhile idTable,
          bin + (text.takeWhile idTable).length + 1, size - (text.takeWhile idTable).length - 1⟩)
      else none := by
  have hhead : idTable (text.headD '\x00') = true := by
    by_contra hc
    exact h ((takeWhile_eq_nil_iff (by decide) text).mpr (by simpa using hc))
  have hloop := wordLoop_stores text bin size
  unfold convertWord
  rw [bind_fst, bind_snd]
  simp only [lookUp, peek, Option.bind_some, hhead, Bool.not_true, Bool.false_eq_true, if_false,
    List.nil_append]
  rw [bind_fst, bind_snd]
  simp only [readWord, hloop]
  by_cases hfit : (text.takeWhile idTable).length ≤ size
  · simp only [wordLoop_done hfit, Option.bind_some]
    rw [bind_fst, bind_snd]
    by_cases hpos : (text.takeWhile idTable).length < size
    · have hne : ¬ size - (text.takeWhile idTable).length = 0 := by omega
      simp [putTerminator, hne, hpos]
      exact ⟨rfl, rfl⟩
    · have he : size - (text.takeWhile idTable).length = 0 := by omega
      simp [putTerminator, he, hpos]
  · have hnot : ¬ (text.takeWhile idTable).length < size := by omega
    have hlong : size < (text.takeWhile idTable).length := by omega
    simp only [wordLoop_none text hlong, Option.bind_none, hnot, if_false, List.append_nil,
      and_self]

namespace Follows

theorem word {b e off size : Nat} {text : Text} (hpos : 0 < size) (he : e < b + off + size)
    (hlt : size < addrSpace) :
    Follows b e off size convertWord text (.word off text) (fun _ => True) := by
  unfold Shape.word
  split
  · rename_i hnil
    exact none_of_run fun bin size => convertWord_stop hnil bin size
  · rename_i hne
    have hrun := convertWord_run (fun h => hne h) (b + off) size
    have hn : 0 < (text.takeWhile idTable).length := List.length_pos_of_ne_nil fun h => hne h
    obtain ⟨hstores, hres⟩ := hrun
    refine ⟨fun hfit st hst => ?_, fun hfit => ?_, fun hfit => ?_⟩
    · simp only [Shape.Fits, Shape.field] at hfit
      have hlen : (text.takeWhile idTable).length < size := by omega
      rw [hstores, if_pos hlen] at hst
      rcases List.mem_append.mp hst with hst | hst
      · obtain ⟨i, hi, rfl⟩ := List.mem_map.mp hst
        have := List.mem_range.mp hi
        simp only
        omega
      · cases List.mem_singleton.mp hst
        simp only
        omega
    · simp only [Shape.Fits, Shape.field] at hfit
      rw [hstores]
      by_cases hend : e < b + off + (text.takeWhile idTable).length
      · -- the first byte that lies behind the end
        refine ⟨⟨b + off + (e - (b + off)), 1⟩, List.mem_append_left _ ?_, ?_⟩
        · exact List.mem_map.mpr ⟨e - (b + off), List.mem_range.mpr (by omega), rfl⟩
        · simp only
          omega
      · have hlen : (text.takeWhile idTable).length < size := by omega
        rw [if_pos hlen]
        refine ⟨_, List.mem_append_right _ (List.mem_singleton.mpr rfl), ?_⟩
        simp only
        omega
    · simp only [Shape.Fits, Shape.field] at hfit
      have hlen : (text.takeWhile idTable).length < size := by omega
      rw [hres, if_pos hlen]
      refine ⟨text.takeWhile idTable, size - (text.takeWhile idTable).length - 1, ?_, trivial, ?_, ?_⟩
      · simp only [Nat.add_assoc]
      · simp only
        omega
      · omega

theorem string {b e off size : Nat} {text : Text} (hpos : 1 < size) (he : e + 1 < b + off + size)
    (hlt : size < addrSpace) :
    Follows b e off size convertString text (.string off text) (fun _ => True) := by
  have hstores := stringLoop_stores text (b + off) size
  by_cases hlen : (text.takeWhile printable).length + 1 ≤ size
  · have hsub : sub64 (size - (text.takeWhile printable).length) 1 =
        size - (text.takeWhile printable).length - 1 := sub64_eq (by omega) (by omega)
    have hres : (convertString.run ⟨text, b + off, size⟩).1 = some (text.takeWhile printable,
        ⟨text.dropWhile printable, b + off + (text.takeWhile printable).length + 1,
          size - (text.takeWhile printable).length - 1⟩) := by
      unfold convertString
      simp only [bind_fst, readString, stringLoop_done hlen, Option.bind_some, Conv.here,
        Conv.store, Conv.skipBin, Conv.chargeSize, hsub]
      rfl
    have hall : (convertString.run ⟨text, b + off, size⟩).2 =
        ((List.range (min (text.takeWhile printable).length (size - 1))).map
          fun i => ⟨b + off + i, 1⟩) ++ [⟨b + off + (text.takeWhile printable).length, 1⟩] := by
      unfold convertString
      rw [bind_snd]
      simp only [readString, stringLoop_done hlen, hstores]
      simp only [bind_snd, Conv.here, Conv.store, Conv.skipBin, Conv.chargeSize]
      rfl
    refine ⟨fun hfit st hst => ?_, fun hfit => ?_, fun hfit => ?_⟩
    · simp only [Shape.Fits, Shape.string, Shape.field] at hfit
      rw [hall] at hst
      rcases List.mem_append.mp hst with hst | hst
      · obtain ⟨i, hi, rfl⟩ := List.mem_map.mp hst
        have := List.mem_range.mp hi
        simp only
        omega
      · cases List.mem_singleton.mp hst
        simp only
        omega
    · simp only [Shape.Fits, Shape.string, Shape.field] at hfit
      rw [hall]
      refine ⟨_, List.mem_append_right _ (List.mem_singleton.mpr rfl), ?_⟩
      simp only
      omega
    · rw [hres]
      refine ⟨text.takeWhile printable, size - (text.takeWhile printable).length - 1, ?_, trivial,
        ?_, ?_⟩
      · simp only [Nat.add_assoc]
      · simp only
        omega
      · omega
  · have hnot : ¬ (Shape.string off text).Fits b e := by
      simp only [Shape.Fits, Shape.string, Shape.field]
      omega
    refine ⟨fun h => absurd h hnot, fun _ => ?_, fun h => absurd h hnot⟩
    refine ⟨⟨b + off + (e - (b + off)), 1⟩, ?_, ?_⟩
    · unfold convertString
      rw [bind_snd]
      refine List.mem_append_left _ ?_
      simp only [readString, hstores]
      exact List.mem_map.mpr ⟨e - (b + off), List.mem_range.mpr (by omega), rfl⟩
    · simp only
      omega

theorem field_andThen_field {reach off : Nat} {text : Text} {h : Text → Text} :
    ((Shape.field reach off text).andThen fun l => .field 0 l.off (h l.rest)) =
      .field reach off (h text) := by
  simp [Shape.andThen, Shape.field]

theorem andThen_field {s : Shape} : (s.andThen fun l => .field 0 l.off l.rest) = s := by
  rcases s with ⟨reach, next⟩
  cases next <;> simp [Shape.andThen, Shape.field]

/-- A last part that leaves the text where it is. -/
theorem bind_end {b e off size : Nat} {m : Conv α} {f : α → Conv β} {text : Text} {s : Shape}
    {P : α → Prop} {Q : β → Prop} (hm : Follows b e off size m text s P)
    (hf : ∀ l, s.next = some l → s.Fits b e → ∀ a size', P a →
      l.off + size' = off + size + l.extra → size' < addrSpace →
      Follows b e l.off size' (f a) l.rest (.field 0 l.off l.rest) Q) :
    Follows b e off size (m >>= f) text s Q := by
  have h := bind hm hf
  rwa [andThen_field] at h

/-- The last store of a record. -/
theorem last {b e off size o len : Nat} {text : Text} {a : α} {P : α → Prop} (hlen : 0 < len)
    (hlt : size < addrSpace) (h : P a) :
    Follows b e off size (Conv.store (b + o) len >>= fun _ => Pure.pure a) text
      (.field (o + len) off text) P :=
  bind_end (field hlen hlt) fun _ _ _ _ _ _ _ hlt' => pure hlt' h

theorem word_next {off : Nat} {text : Text} {l : Landing} (h : (Shape.word off text).next = some l) :
    l.extra = 0 ∧ off < l.off ∧ l.off ≤ (Shape.word off text).reach := by
  unfold Shape.word at h ⊢
  cases hw : text.takeWhile idTable with
  | nil =>
    rw [hw] at h
    cases h
  | cons c w =>
    rw [hw] at h
    simp only [Shape.field, Option.some.injEq] at h ⊢
    subst h
    refine ⟨rfl, ?_, ?_⟩ <;> simp only <;> omega

theorem scan_next {off : Nat} {text : Option Text} {l : Landing}
    (h : (Shape.scan off text).next = some l) : l.extra = 0 ∧ l.off = off := by
  obtain ⟨t, -, rfl⟩ := Option.map_eq_some_iff.mp h
  exact ⟨rfl, rfl⟩

theorem field_next {reach off : Nat} {text : Text} {l : Landing}
    (h : (Shape.field reach off text).next = some l) : l.extra = 0 ∧ l.off = off := by
  cases h
  exact ⟨rfl, rfl⟩

theorem field_fits {b e reach off : Nat} {text : Text} (hpos : 0 < reach)
    (h : (Shape.field reach off text).Fits b e) : b + reach ≤ e := by
  rcases h with h | h
  · exact absurd h (by simp only [Shape.field]; omega)
  · exact h

theorem composed_next {off : Nat} : ∀ {fuel : Nat} {text : Text} {l : Landing},
    (Shape.composed off fuel text).next = some l →
      l.extra = 0 ∧ off < l.off ∧ l.off ≤ (Shape.composed off fuel text).reach
  | 0, text, l, h => word_next h
  | fuel + 1, text, l, h => by
    unfold Shape.composed Shape.andThen at h ⊢
    cases hw : (Shape.word off text).next with
    | none =>
      simp only [hw] at h
      cases h
    | some l1 =>
      have hw' := word_next hw
      simp only [hw] at h ⊢
      by_cases hdot : l1.rest.headD '\x00' = '.'
      · simp only [hdot, if_true, Option.map_eq_some_iff] at h ⊢
        obtain ⟨l2, hl2, rfl⟩ := h
        have := composed_next hl2
        simp only
        omega
      · simp only [hdot, if_false, Shape.field, Option.map_some, Option.some.injEq] at h ⊢
        subst h
        simp only
        omega

theorem composed {b e off size : Nat} (hpos : 0 < size) (he : e < b + off + size)
    (hlt : size < addrSpace) : ∀ (fuel : Nat) (text : Text),
    Follows b e off size (convertWord >>= composedLoop (b + off) size fuel) text
      (.composed off fuel text) (fun _ => True)
  | 0, text => bind_end (word hpos he hlt) fun _ _ _ _ _ _ _ hlt' => pure hlt' trivial
  | fuel + 1, text => by
    refine bind (word hpos he hlt) fun l hl _ a size' _ hacc hlt' => ?_
    unfold composedLoop
    refine peek hlt' ?_
    by_cases hdot : l.rest.headD '\x00' = '.'
    · simp only [hdot, beq_self_eq_true, if_true]
      refine scan hlt' ?_
      refine move (m := resetBin (b + off) size) rfl ?_ hlt ?_
      · have := (word_next hl).1
        omega
      · exact composed hpos he hlt fuel l.rest.tail
    · have hne : ¬ (l.rest.headD '\x00' == '.') = true := by simpa using hdot
      simp only [hne, hdot, if_false]
      exact pure hlt' trivial

theorem composedIdentifier {b e off size : Nat} {text : Text} (hpos : 0 < size)
    (he : e < b + off + size) (hlt : size < addrSpace) :
    Follows b e off size convertComposedIdentifier text (.composed off text.length text)
      (fun _ => True) :=
  cursors hlt (composed hpos he hlt text.length text)

end Follows

/-! ## The records -/

theorem convertAttr_follows {b e size : Nat} {text : Text} (he : e ≤ b + size)
    (hlt : size < addrSpace) :
    Follows b e 0 size convertAttr text (attrShape text) (fun _ => True) := by
  unfold convertAttr attrShape
  refine .here hlt (.skipBin (.scan hlt ?_))
  rw [Nat.zero_add, Nat.add_zero]
  refine .bind (.expect hlt) fun l1 hl1 _ _ s1 _ hacc1 hlt1 => ?_
  obtain ⟨hx1, ho1⟩ := Follows.scan_next hl1
  refine .scan hlt1 (.bind (.field (o := 8) (by decide) hlt1) fun l2 hl2 hf2 _ s2 _ hacc2 hlt2 => ?_)
  obtain ⟨hx2, ho2⟩ := Follows.field_next hl2
  have hb2 := Follows.field_fits (by decide) hf2
  unfold sizeofAttrRec at ho1 hacc1
  refine .bind (.composedIdentifier (by omega) (by omega) hlt2) fun l3 hl3 hf3 _ s3 _ hacc3 hlt3 => ?_
  obtain ⟨hx3, ho3, hr3⟩ := Follows.composed_next hl3
  have hb3 : b + l3.off ≤ e := by
    unfold Shape.Fits at hf3
    omega
  refine .bind (.onText hlt3) fun l4 hl4 _ _ s4 _ hacc4 hlt4 => ?_
  obtain ⟨hx4, ho4⟩ := Follows.scan_next hl4
  refine .bind (.field (o := 16) (by decide) hlt4) fun l5 hl5 _ _ s5 _ hacc5 hlt5 => ?_
  obtain ⟨hx5, ho5⟩ := Follows.field_next hl5
  refine .bind (.string (by omega) (by omega) hlt5) fun l6 hl6 _ _ s6 _ hacc6 hlt6 => ?_
  refine .bind (.expect hlt6) fun l7 hl7 _ _ s7 _ hacc7 hlt7 => ?_
  exact .last (o := 0) (by decide) hlt7 trivial

theorem convertConnTarget_follows {b e size : Nat} {text : Text} (he : e ≤ b + size)
    (hlt : size < addrSpace) :
    Follows b e 0 size convertConnTarget text (targetShape text) (fun _ => True) := by
  unfold convertConnTarget targetShape
  refine .here hlt (.skipBin ?_)
  rw [Nat.zero_add, Nat.add_zero]
  refine .bind (.field (o := 8) (by decide) hlt) fun l1 hl1 hf1 _ s1 _ hacc1 hlt1 => ?_
  obtain ⟨hx1, ho1⟩ := Follows.field_next hl1
  refine .bind (.onText hlt1) fun l2 hl2 _ _ s2 _ hacc2 hlt2 => ?_
  obtain ⟨hx2, ho2⟩ := Follows.scan_next hl2
  refine .bind (.expect hlt2) fun l3 hl3 _ _ s3 _ hacc3 hlt3 => ?_
  obtain ⟨hx3, ho3⟩ := Follows.scan_next hl3
  refine .bind (.field (o := 16) (by decide) hlt3) fun l4 hl4 hf4 _ s4 _ hacc4 hlt4 => ?_
  obtain ⟨hx4, ho4⟩ := Follows.field_next hl4
  have hb4 := Follows.field_fits (by decide) hf4
  unfold sizeofConnTargetRec at ho1 hacc1
  refine .bind (.word (by omega) (by omega) hlt4) fun l5 hl5 _ _ s5 _ hacc5 hlt5 => ?_
  exact .last (o := 0) (by decide) hlt5 trivial

/-! ## Lists of records -/

namespace Follows

variable {b e off size : Nat} {m : Conv α} {text : Text} {s : Shape} {P : α → Prop}

theorem attempt_none (h : Follows b e off size m text s P) (hs : s.next = none)
    (hlt : size < addrSpace) :
    Follows b e off size (Conv.attempt m) text (.field s.reach off text) (· = none) := by
  have hstores : ((Conv.attempt m).run ⟨text, b + off, size⟩).2 =
      (m.run ⟨text, b + off, size⟩).2 := by
    rcases hm : m.run ⟨text, b + off, size⟩ with ⟨_ | ⟨a, c⟩, stores⟩ <;> simp [Conv.attempt, hm]
  refine ⟨fun hf => ?_, fun hf => ?_, fun hf => ?_⟩
  · rw [hstores]
    exact h.inside hf
  · rw [hstores]
    exact h.outside hf
  · have hl := h.lands hf
    rw [hs] at hl
    have hl' : (m.run ⟨text, b + off, size⟩).1 = none := hl
    refine ⟨none, size, ?_, rfl, rfl, hlt⟩
    rcases hm : m.run ⟨text, b + off, size⟩ with ⟨o, stores⟩
    rw [hm] at hl'
    cases hl'
    simp [Conv.attempt, hm]

theorem attempt_some {l : Landing} (h : Follows b e off size m text s P) (hs : s.next = some l) :
    Follows b e off size (Conv.attempt m) text s (fun o => ∃ a, o = some a ∧ P a) := by
  have hstores : ((Conv.attempt m).run ⟨text, b + off, size⟩).2 =
      (m.run ⟨text, b + off, size⟩).2 := by
    rcases hm : m.run ⟨text, b + off, size⟩ with ⟨_ | ⟨a, c⟩, stores⟩ <;> simp [Conv.attempt, hm]
  refine ⟨fun hf => ?_, fun hf => ?_, fun hf => ?_⟩
  · rw [hstores]
    exact h.inside hf
  · rw [hstores]
    exact h.outside hf
  · have hl := h.lands hf
    unfold Lands at hl ⊢
    rw [hs] at hl ⊢
    obtain ⟨a, size', hrun, hP, hacc⟩ := hl
    refine ⟨some a, size', ?_, ⟨a, rfl, hP⟩, hacc⟩
    rcases hm : m.run ⟨text, b + off, size⟩ with ⟨o, stores⟩
    rw [hm] at hrun
    cases hrun
    simp [Conv.attempt, hm]

theorem whileConvert {record : Text → Shape} {k : Nat}
    (hm : ∀ off size text, e + k ≤ b + off + size → size < addrSpace →
      Follows (b + off) e 0 size m text (record text) (fun _ => True))
    (hreach : ∀ text l, (record text).next = some l → 8 ≤ (record text).reach) :
    ∀ (fuel : Nat) {off size : Nat} {text : Text}, e + k ≤ b + off + size → size < addrSpace →
      Follows b e off size (BinStrat.whileConvert m fuel) text (.list record fuel off text)
        (fun recs => ∀ r ∈ recs, b ≤ r.1 ∧ r.1 + 8 ≤ e)
  | 0, off, size, text, _, hlt => pure hlt (by simp)
  | fuel + 1, off, size, text, hk, hlt => by
    have hrec := (hm off size text hk hlt).rebase
    unfold BinStrat.whileConvert Shape.list
    refine here hlt ?_
    cases hnext : ((record text).shift off).next with
    | none =>
      refine bind_end (hrec.attempt_none hnext hlt) ?_
      rintro l - - o size' rfl - hlt'
      exact pure hlt' (by simp)
    | some l0 =>
      refine bind (hrec.attempt_some hnext) ?_
      rintro l hl hfit o size' ⟨a, rfl, -⟩ hacc hlt'
      refine bind_end (whileConvert hm hreach fuel (by omega) hlt') ?_
      intro l' _ _ recs size'' hrecs _ hlt''
      refine pure hlt'' fun r hr => ?_
      rcases List.mem_cons.mp hr with rfl | hr
      · obtain ⟨lr, hlr, -⟩ := Option.map_eq_some_iff.mp hl
        have h8 := hreach text lr hlr
        have hf := Shape.fits_shift.mp hfit
        unfold Shape.Fits at hf
        simp only
        omega
      · exact hrecs r hr

theorem convertList {record : Text → Shape} {k o : Nat}
    (hm : ∀ off size text, e + k ≤ b + off + size → size < addrSpace →
      Follows (b + off) e 0 size m text (record text) (fun _ => True))
    (hreach : ∀ text l, (record text).next = some l → 8 ≤ (record text).reach)
    (hk : e + k ≤ b + off + size) (hlt : size < addrSpace) :
    Follows b e off size (BinStrat.convertList m (b + o)) text
      ((Shape.field (o + 8) off text).andThen fun l =>
        .list record (l.rest.length + 1) l.off l.rest) (fun _ => True) := by
  unfold BinStrat.convertList
  refine bind (field (by decide) hlt) fun l1 hl1 hf1 _ s1 _ hacc1 hlt1 => ?_
  have hb1 := field_fits (by omega) hf1
  refine cursors hlt1 ?_
  refine bind_end (whileConvert hm hreach (l1.rest.length + 1) (by omega) hlt1) ?_
  intro l2 _ _ recs s2 hrecs _ hlt2
  split
  · exact covered hlt2 (by omega) (by omega) (pure hlt2 trivial)
  · rename_i r hr
    have := hrecs r (List.mem_of_getLast? hr)
    exact covered hlt2 this.1 this.2 (pure hlt2 trivial)

end Follows

/-! ## Targets -/

theorem targetShape_reach (text : Text) : 8 ≤ (targetShape text).reach := by
  unfold targetShape Shape.addExtra
  simp only [Shape.andThen, Shape.field]
  omega

theorem moreTargets_follows {b e : Nat} {isInput : Bool} : ∀ (fuel : Nat) {off size : Nat}
    {text : Text}, e ≤ b + off + size → size < addrSpace →
    Follows b e off size (moreTargets isInput fuel) text (moreTargetsShape isInput fuel off text)
      (fun recs => ∀ r ∈ recs, b ≤ r.1 ∧ r.1 + 8 ≤ e)
  | 0, off, size, text, _, hlt => .pure hlt (by simp)
  | fuel + 1, off, size, text, he, hlt => by
    unfold moreTargets moreTargetsShape
    refine .peek hlt ?_
    by_cases hcomma : text.headD '\x00' = ','
    · simp only [hcomma, beq_self_eq_true, if_true]
      cases isInput with
      | true =>
        simp only [if_true]
        refine .none_of_run fun bin size => ?_
        exact Prod.ext (by rw [bind_fst]; rfl) (by rw [bind_snd]; rfl)
      | false =>
        simp only [Bool.false_eq_true, if_false]
        refine .scan hlt (.here hlt ?_)
        have hrec := (@convertConnTarget_follows (b + off) e _ text.tail (by omega) hlt).rebase
        refine .bind hrec fun l _ hfit a size' _ hacc hlt' => ?_
        have hrest := Follows.bind (g := fun l => .field 0 l.off l.rest)
          (@moreTargets_follows b e false fuel l.off _ l.rest (by omega) hlt')
          (f := fun recs => (Pure.pure ((b + off, a) :: recs) : Conv (List (Nat × ConnTargetRec))))
          (Q := fun recs => ∀ r ∈ recs, b ≤ r.1 ∧ r.1 + 8 ≤ e) (by
            intro l' _ _ recs size'' hrecs _ hlt''
            refine .pure hlt'' fun r hr => ?_
            rcases List.mem_cons.mp hr with rfl | hr
            · have h8 := targetShape_reach text.tail
              have hf := Shape.fits_shift.mp hfit
              unfold Shape.Fits at hf
              simp only
              omega
            · exact hrecs r hr)
        rwa [Follows.andThen_field] at hrest
    · have hne : ¬ (text.headD '\x00' == ',') = true := by simpa using hcomma
      simp only [hne, hcomma, if_false]
      exact .pure hlt (by simp)

theorem convertTargets_follows {b e off size head : Nat} {isInput : Bool} {text : Text}
    (hb : b ≤ head) (hhead : head + 8 ≤ e) (he : e ≤ b + off + size) (hlt : size < addrSpace) :
    Follows b e off size (convertTargets isInput head) text (targetsShape isInput off text)
      (fun _ => True) := by
  have hrec := (@convertConnTarget_follows (b + off) e _ text (by omega) hlt).rebase
  unfold convertTargets targetsShape
  refine .covered hlt hb hhead (.here hlt ?_)
  cases hnext : ((targetShape text).shift off).next with
  | none =>
    refine .bind_end (hrec.attempt_none hnext hlt) ?_
    rintro l - - o size' rfl - hlt'
    exact .covered hlt' hb hhead (.pure hlt' trivial)
  | some l0 =>
    refine .bind (hrec.attempt_some hnext) ?_
    rintro l - hfit o size' ⟨a, rfl, -⟩ hacc hlt'
    refine .cursors hlt' ?_
    have hplace : b ≤ b + off ∧ b + off + 8 ≤ e := by
      have h8 := targetShape_reach text
      have hf := Shape.fits_shift.mp hfit
      unfold Shape.Fits at hf
      omega
    refine .bind_end (moreTargets_follows l.rest.length (by omega) hlt') ?_
    intro l2 _ _ recs s2 hrecs _ hlt2
    have hlast : ∀ r ∈ (b + off, a) :: recs, b ≤ r.1 ∧ r.1 + 8 ≤ e := by
      intro r hr
      rcases List.mem_cons.mp hr with rfl | hr
      · exact hplace
      · exact hrecs r hr
    have := hlast _ (List.getLast_mem (List.cons_ne_nil _ _))
    exact .covered hlt2 this.1 this.2 (.pure hlt2 trivial)

/-! ## Connectors -/

theorem openMark_follows {b e off size o : Nat} {mask : BitVec 16} {text : Text}
    (hlt : size < addrSpace) :
    Follows b e off size (openMark (b + o) mask) text
      (.field (o + 2) off (if (skipWhitespace text).headD '\x00' = '(' then (skipWhitespace text).tail
        else skipWhitespace text))
      (· = if (skipWhitespace text).headD '\x00' = '(' then 0 else mask) := by
  have hs := Follows.bind
    (g := fun l => .field 0 l.off (if (skipWhitespace l.rest).headD '\x00' = '(' then
      (skipWhitespace l.rest).tail else skipWhitespace l.rest))
    (@Follows.field b e off size text o 2 (by decide) hlt)
    (Q := (· = if (skipWhitespace text).headD '\x00' = '(' then 0 else mask))
    (f := fun _ => do
      scan skipWhitespace (runLooks wsTable)
      if (← peek) == '(' then
        store (b + o) 2
        scan List.tail noLooks
        return mask &&& ~~~mask
      else return mask) (by
        intro l hl hf _ size' _ _ hlt'
        have hfit := Follows.field_fits (by omega) hf
        cases hl
        refine .scan hlt' (.peek hlt' ?_)
        by_cases hp : (skipWhitespace text).headD '\x00' = '('
        · simp only [hp, beq_self_eq_true, if_true]
          exact .covered hlt' (by omega) (by omega) (.scan hlt' (.pure hlt' (by simp)))
        · have hne : ¬ ((skipWhitespace text).headD '\x00' == '(') = true := by simpa using hp
          simp only [hne, hp, if_false]
          exact .pure hlt' rfl)
  rwa [Follows.field_andThen_field (h := fun text =>
    if (skipWhitespace text).headD '\x00' = '(' then (skipWhitespace text).tail
    else skipWhitespace text)] at hs

theorem closeMark_follows {b e off size : Nat} {flags mask : BitVec 16} {text : Text}
    (hlt : size < addrSpace) :
    Follows b e off size (closeMark flags mask) text
      (.scan off (if flags &&& mask == 0 then behind ')' text else some text)) (fun _ => True) := by
  unfold closeMark
  split
  · exact .expect hlt
  · exact .pure hlt trivial

/-- The rest of `connKind` behind the parenthesis. -/
theorem kindTail_follows {b e off size : Nat} {text : Text} {flags : BitVec 16}
    (hb : b + 10 ≤ e) (hlt : size < addrSpace) :
    Follows b e off size (do
        if ← accept (skipWord · "output".toList) (wordLooks · "output".toList) then
          store (b + 8) 2
          closeMark (flags ||| maskConnType) maskConnActive
          return flags ||| maskConnType
        else
          expect (skipWord · "input".toList) (wordLooks · "input".toList)
          closeMark flags maskConnActive
          return flags) text
      (match skipWord text "output".toList with
        | some rest => .scan off (if (flags ||| maskConnType) &&& maskConnActive == 0 then
            behind ')' rest else some rest)
        | none => .scan off ((skipWord text "input".toList).bind fun rest =>
            if flags &&& maskConnActive == 0 then behind ')' rest else some rest))
      (· = if (skipWord text "output".toList).isSome then flags ||| maskConnType else flags) := by
  have hclose {off size : Nat} {flags : BitVec 16} {rest : Text} (hlt : size < addrSpace) :
      Follows b e off size (do
        closeMark flags maskConnActive
        return flags) rest
        (.scan off (if flags &&& maskConnActive == 0 then behind ')' rest else some rest))
        (· = flags) := by
    exact .bind_end (closeMark_follows hlt) fun _ _ _ _ _ _ _ hlts => .pure hlts rfl
  cases hout : skipWord text "output".toList with
  | some rest => exact .accept_some hlt hout (.covered hlt (by omega) (by omega) (hclose hlt))
  | none =>
    refine .accept_none hlt hout ?_
    refine (Follows.bind (.expect hlt) fun l _ _ _ s _ _ hlts => hclose hlts).congr ?_
    cases skipWord text "input".toList with
    | none => rfl
    | some rest =>
      simp only [Shape.scan, Shape.andThen, Option.map_some, Option.bind_some]
      split <;> cases behind ')' rest <;> rfl

theorem kindTail_shape (off : Nat) (text : Text) :
    let p := (skipWhitespace text).headD '\x00' = '('
    let inner := if p then (skipWhitespace text).tail else skipWhitespace text
    let flags := if p then 0 else maskConnActive
    (match skipWord inner "output".toList with
      | some rest => Shape.scan off (if (flags ||| maskConnType) &&& maskConnActive == 0 then
          behind ')' rest else some rest)
      | none => Shape.scan off ((skipWord inner "input".toList).bind fun rest =>
          if flags &&& maskConnActive == 0 then behind ')' rest else some rest)) =
      Shape.scan off ((kindScan text).map Prod.snd) := by
  have h1 : ((0 ||| maskConnType) &&& maskConnActive == 0) = true := by decide
  have h2 : (0 &&& maskConnActive == 0) = true := by decide
  have h3 : ((maskConnActive ||| maskConnType) &&& maskConnActive == 0) = false := by decide
  have h4 : (maskConnActive &&& maskConnActive == 0) = false := by decide
  intro p inner flags
  unfold kindScan
  by_cases hp : (skipWhitespace text).headD '\x00' = '('
  · simp only [inner, flags, p, hp, if_true, h1, h2]
    cases skipWord (skipWhitespace text).tail "output".toList with
    | some rest => simp
    | none =>
      cases skipWord (skipWhitespace text).tail "input".toList with
      | none => rfl
      | some rest => simp
  · simp only [inner, flags, p, hp, if_false, h3, h4, Bool.false_eq_true]
    cases skipWord (skipWhitespace text) "output".toList with
    | some rest => simp
    | none =>
      cases skipWord (skipWhitespace text) "input".toList with
      | none => rfl
      | some rest => simp

theorem kindTail_flags (text : Text) :
    let p := (skipWhitespace text).headD '\x00' = '('
    let inner := if p then (skipWhitespace text).tail else skipWhitespace text
    let flags := if p then 0 else maskConnActive
    ∀ k, kindScan text = some k →
      ((if (skipWord inner "output".toList).isSome then flags ||| maskConnType else flags) &&& 0x08 == 0) =
        k.1 := by
  intro p inner flags k hk
  unfold kindScan at hk
  by_cases hp : (skipWhitespace text).headD '\x00' = '('
  · simp only [hp, if_true] at hk
    simp only [inner, flags, p, hp, if_true]
    cases hout : skipWord (skipWhitespace text).tail "output".toList with
    | some rest =>
      rw [hout] at hk
      obtain ⟨t, -, rfl⟩ := Option.map_eq_some_iff.mp hk
      show ((0 ||| maskConnType) &&& 0x08 == 0) = false
      decide
    | none =>
      rw [hout] at hk
      obtain ⟨k', hk', hk⟩ := Option.bind_eq_some_iff.mp hk
      obtain ⟨t', -, rfl⟩ := Option.map_eq_some_iff.mp hk'
      obtain ⟨t, -, rfl⟩ := Option.map_eq_some_iff.mp hk
      rfl
  · simp only [hp, if_false] at hk
    simp only [inner, flags, p, hp, if_false]
    cases hout : skipWord (skipWhitespace text) "output".toList with
    | some rest =>
      rw [hout] at hk
      cases hk
      show ((maskConnActive ||| maskConnType) &&& 0x08 == 0) = false
      decide
    | none =>
      rw [hout] at hk
      obtain ⟨k', hk', hk⟩ := Option.bind_eq_some_iff.mp hk
      obtain ⟨t', -, rfl⟩ := Option.map_eq_some_iff.mp hk'
      cases hk
      rfl

theorem connKind_follows {b e off size : Nat} {text : Text} (hlt : size < addrSpace) :
    Follows b e off size (connKind b) text
      (match kindScan text with
        | none => ⟨10, none⟩
        | some k => .field 10 off k.2)
      (fun flags => ∀ k, kindScan text = some k → (flags &&& 0x08 == 0) = k.1) := by
  have hopen := @openMark_follows b e off size 8 maskConnActive text hlt
  have hbind := Follows.bind hopen (Q := fun flags => ∀ k, kindScan text = some k →
    (flags &&& 0x08 == 0) = k.1) (f := fun flags => do
        if ← accept (skipWord · "output".toList) (wordLooks · "output".toList) then
          store (b + 8) 2
          closeMark (flags ||| maskConnType) maskConnActive
          return flags ||| maskConnType
        else
          expect (skipWord · "input".toList) (wordLooks · "input".toList)
          closeMark flags maskConnActive
          return flags)
    (g := fun l => .scan l.off ((kindScan text).map Prod.snd)) (by
      rintro l hl hf flags size' rfl - hlt'
      have hfit := Follows.field_fits (by decide) hf
      cases hl
      exact ((kindTail_follows hfit hlt').congr (kindTail_shape off text)).mono
        fun flags h => h ▸ kindTail_flags text)
  refine hbind.congr ?_
  cases kindScan text <;> rfl

theorem type_bit_or (flags : BitVec 16) {x : BitVec 16} (h : x &&& 0x08 = 0) :
    (flags ||| x) &&& 0x08 = flags &&& 0x08 := by
  rw [BitVec.and_or_distrib_right, h]
  simp

theorem connConnect_follows {b e off size : Nat} {flags : BitVec 16} {text : Text} {isInput : Bool}
    (hflags : (flags &&& 0x08 == 0) = isInput) (he : e ≤ b + off + size) (hlt : size < addrSpace) :
    Follows b e off size (connConnect b flags) text
      ((Shape.field 40 off text).andThen fun l => connectShape isInput l.off l.rest)
      (fun _ => True) := by
  unfold connConnect
  refine .bind (.field (o := 32) (by decide) hlt) fun l1 hl1 hf1 _ s1 _ hacc1 hlt1 => ?_
  have hb1 := Follows.field_fits (by decide) hf1
  cases hl1
  unfold connectShape
  simp only at hacc1
  cases hc : skipWord text "connect".toList with
  | none => exact .accept_none hlt1 hc (.pure hlt1 trivial)
  | some rest =>
    refine .accept_some hlt1 hc (.scan hlt1 ?_)
    refine .bind (.expect hlt1) fun l2 hl2 _ _ s2 _ hacc2 hlt2 => ?_
    obtain ⟨hx2, ho2⟩ := Follows.scan_next hl2
    simp only at hacc2 ho2
    refine .bind (.onText hlt2) fun l3 hl3 _ action s3 _ hacc3 hlt3 => ?_
    obtain ⟨hx3, ho3⟩ := Follows.scan_next hl3
    have hkeep := type_bit_or flags (x := action.code <<< 4) (by cases action <;> decide)
    simp only [hkeep, hflags]
    refine .covered hlt3 (by omega) (by omega) (.scan hlt3 ?_)
    exact .bind_end (convertTargets_follows (by omega) (by omega) (by omega) hlt3)
      fun _ _ _ _ _ _ _ hlt4 => .pure hlt4 trivial

namespace Follows

theorem equiv {b e off size : Nat} {m : Conv α} {text : Text} {s t : Shape} {P : α → Prop}
    (h : Follows b e off size m text s P) (hfit : s.Fits b e ↔ t.Fits b e)
    (hnext : s.Fits b e → s.next = t.next) : Follows b e off size m text t P := by
  refine ⟨fun hf => h.inside (hfit.mpr hf), fun hf => h.outside fun h' => hf (hfit.mp h'), fun hf => ?_⟩
  rw [← hnext (hfit.mpr hf)]
  exact h.lands (hfit.mpr hf)

/-- The room for a record is skipped and charged. A size below it wraps, and then no text that is
accepted fits. -/
theorem skipCharge {b e off size n : Nat} {f : Unit → Conv β} {text : Text} {t : Shape}
    {Q : β → Prop} (hlt : size < addrSpace) (hn : n < addrSpace)
    (hf : ∀ size', size' < addrSpace → (n ≤ size → size' = size - n) →
      (size < n → size' = size + (addrSpace - n)) → Follows b e (off + n) size' (f ()) text t Q)
    (hno : size < n → t.Fits b e → t.next = none) :
    Follows b e off size (Conv.skipBin n >>= fun _ => Conv.chargeSize n >>= f) text t Q := by
  have hrun : (Conv.skipBin n >>= fun _ => Conv.chargeSize n >>= f).run ⟨text, b + off, size⟩ =
      (f ()).run ⟨text, b + (off + n), sub64 size n⟩ := by
    refine Prod.ext ?_ ?_
    · simp only [bind_fst, Conv.skipBin, Conv.chargeSize, Option.bind_some, Nat.add_assoc]
    · simp only [bind_snd, Conv.skipBin, Conv.chargeSize, List.nil_append, Nat.add_assoc]
  have hfoll := hf (sub64 size n) (sub64_lt _ _) (fun h => sub64_eq h hlt) (fun h => by
    unfold sub64 addrSpace at *
    omega)
  refine ⟨fun h => hrun ▸ hfoll.inside h, fun h => hrun ▸ hfoll.outside h, fun h => ?_⟩
  have hl := hfoll.lands h
  rw [hrun]
  unfold Lands at hl ⊢
  cases ht : t.next with
  | none =>
    rw [ht] at hl
    exact hl
  | some l =>
    rw [ht] at hl
    obtain ⟨a, size', hr, hQ, hacc, hlt'⟩ := hl
    have hle : n ≤ size := by
      by_contra hlt'
      have := hno (by omega) h
      rw [ht] at this
      cases this
    refine ⟨a, size', hr, hQ, ?_, hlt'⟩
    rw [sub64_eq hle hlt] at hacc
    omega

end Follows

/-- A step of a shape that is accepted was accepted itself. -/
theorem Shape.andThen_next {s : Shape} {f : Landing → Shape} {l : Landing}
    (h : (s.andThen f).next = some l) : ∃ l1 l2, s.next = some l1 ∧ (f l1).next = some l2 ∧
      (s.andThen f).reach = max s.reach (f l1).reach ∧ l.extra = l1.extra + l2.extra := by
  unfold Shape.andThen at h ⊢
  cases hs : s.next with
  | none =>
    rw [hs] at h
    simp only at h
    rw [hs] at h
    cases h
  | some l1 =>
    rw [hs] at h
    obtain ⟨l2, hl2, rfl⟩ := Option.map_eq_some_iff.mp h
    exact ⟨l1, l2, rfl, hl2, rfl, rfl⟩

theorem connShape_reach {clip : Shape → Shape} {text : Text} {l : Landing}
    (h : (connShape clip text).next = some l) : 40 ≤ (connShape clip text).reach := by
  unfold connShape at h ⊢
  cases hk : kindScan text with
  | none =>
    rw [hk] at h
    cases h
  | some k =>
    rw [hk] at h
    simp only at h ⊢
    obtain ⟨_, _, _, h1, r1, -⟩ := Shape.andThen_next h
    obtain ⟨_, _, _, h2, r2, -⟩ := Shape.andThen_next h1
    obtain ⟨_, _, _, h3, r3, -⟩ := Shape.andThen_next h2
    obtain ⟨_, _, _, h4, r4, -⟩ := Shape.andThen_next h3
    obtain ⟨_, _, _, h5, r5, -⟩ := Shape.andThen_next h4
    obtain ⟨_, _, _, h6, r6, -⟩ := Shape.andThen_next h5
    obtain ⟨_, _, _, h7, r7, -⟩ := Shape.andThen_next h6
    rw [r1, r2, r3, r4, r5, r6, r7]
    simp only [Shape.field]
    omega

theorem attrShape_reach (text : Text) (l : Landing) (h : (attrShape text).next = some l) :
    8 ≤ (attrShape text).reach := by
  unfold attrShape Shape.addExtra at h ⊢
  obtain ⟨l', hl', -⟩ := Option.map_eq_some_iff.mp h
  obtain ⟨_, _, _, h1, r1, -⟩ := Shape.andThen_next hl'
  obtain ⟨_, _, _, h2, r2, -⟩ := Shape.andThen_next h1
  simp only
  rw [r1, r2]
  simp only [Shape.field]
  omega

theorem Shape.andThen_assoc {s : Shape} {f : Landing → Shape} {g : Nat → Text → Shape} :
    ((s.andThen f).andThen fun l => g l.off l.rest) =
      s.andThen fun l => (f l).andThen fun l => g l.off l.rest := by
  unfold Shape.andThen
  cases hs : s.next with
  | none => simp only [hs]
  | some l =>
    simp only
    cases hf : (f l).next with
    | none => simp [hf]
    | some l2 =>
      simp only [Option.map_some, Shape.mk.injEq]
      refine ⟨by omega, ?_⟩
      cases (g l2.off l2.rest).next with
      | none => rfl
      | some l3 => simp [Nat.add_assoc]

/-- `if (skip_word(&text, "...")) skip_rest_of_line(&text);` -/
theorem Follows.afterParam {b e off size : Nat} {param text : Text} {f : Unit → Conv β} {t : Shape}
    {Q : β → Prop} (hlt : size < addrSpace)
    (hf : Follows b e off size (f ()) (BinStrat.afterParam param text) t Q) :
    Follows b e off size (Conv.accept (skipWord · param) (wordLooks · param) >>= fun found =>
      if found = true then Conv.scan skipRestOfLine noLooks >>= f else f ()) text t Q := by
  unfold BinStrat.afterParam at hf
  cases hp : skipWord text param with
  | none =>
    rw [hp] at hf
    exact .accept_none hlt hp hf
  | some rest =>
    rw [hp] at hf
    exact .accept_some hlt hp (.scan hlt hf)

/-- A connector behind its name. -/
theorem connRest_follows {b e off size : Nat} {flags : BitVec 16} {name text : Text} {isInput : Bool}
    (hflags : (flags &&& 0x08 == 0) = isInput) (he : e + 0 ≤ b + off + size)
    (hlt : size < addrSpace) :
    Follows b e off size (do
        if ← accept (skipWord · "c_param".toList) (wordLooks · "c_param".toList) then scan skipRestOfLine noLooks
        let attr ← convertList convertAttr (b + 24)
        scan skipWhitespace (runLooks wsTable)
        let (flags, target) ← connConnect b flags
        expect (skipStr · " \x7d ".toList) (strLooks · " \x7d ".toList)
        store b 8
        return (⟨flags, name, attr, target⟩ : ConnRec)) text
      ((Shape.field 32 off (BinStrat.afterParam "c_param".toList text)).andThen fun l =>
        (Shape.list attrShape (l.rest.length + 1) l.off l.rest).andThen fun l =>
        (Shape.field 40 l.off (skipWhitespace l.rest)).andThen fun l =>
        (connectShape isInput l.off l.rest).andThen fun l =>
        (Shape.scan l.off (skipStr l.rest " \x7d ".toList)).andThen fun l =>
        Shape.field 8 l.off l.rest) (fun _ => True) := by
  refine .afterParam hlt ?_
  rw [← Shape.andThen_assoc (f := fun l => Shape.list attrShape (l.rest.length + 1) l.off l.rest)
    (g := fun off rest => (Shape.field 40 off (skipWhitespace rest)).andThen fun l =>
      (connectShape isInput l.off l.rest).andThen fun l =>
      (Shape.scan l.off (skipStr l.rest " \x7d ".toList)).andThen fun l =>
      Shape.field 8 l.off l.rest)]
  refine .bind (.convertList (k := 0) (o := 24) (fun off size text h hl => convertAttr_follows (by omega) hl)
    attrShape_reach he hlt) fun l1 _ _ attr s1 _ hacc1 hlt1 => ?_
  refine .scan hlt1 ?_
  rw [← Shape.andThen_assoc (f := fun l => connectShape isInput l.off l.rest)
    (g := fun off rest => (Shape.scan off (skipStr rest " \x7d ".toList)).andThen fun l =>
      Shape.field 8 l.off l.rest)]
  refine .bind (connConnect_follows hflags (by omega) hlt1) fun l2 _ _ r s2 _ hacc2 hlt2 => ?_
  refine .bind (.expect hlt2) fun l3 _ _ _ s3 _ hacc3 hlt3 => ?_
  exact .last (o := 0) (by decide) hlt3 trivial

/-- A connector. `hname` is what happens to its name. -/
theorem convertConn_follows {b e size : Nat} {text : Text} {clip : Shape → Shape}
    (he : e ≤ b + size) (hlt : size < addrSpace)
    (hname : ∀ size' text', size' < addrSpace → (40 ≤ size → size' = size - 40) →
      (size < 40 → size' = size + (addrSpace - 40)) → b + 24 ≤ e →
      Follows b e 40 size' convertComposedIdentifier text'
        (clip (.composed 40 text'.length text')) (fun _ => True)) :
    Follows b e 0 size convertConn text (connShape clip text) (fun _ => True) := by
  unfold convertConn
  refine .here hlt (.skipCharge hlt (by decide) ?_ ?_)
  · intro s0 hlt0 hge hsmall
    rw [Nat.zero_add, Nat.add_zero]
    have hkind := @connKind_follows b e sizeofConnRec _ text hlt0
    unfold connShape
    cases hk : kindScan text with
    | none =>
      rw [hk] at hkind
      refine (Follows.bind (g := fun _ => ⟨0, none⟩) hkind ?_).congr rfl
      intro l hl
      cases hl
    | some k =>
      obtain ⟨isInput, rest⟩ := k
      rw [hk] at hkind
      refine .bind hkind fun l1 hl1 hf1 flags s1 hflags hacc1 hlt1 => ?_
      have hin : (flags &&& 0x08 == 0) = isInput := hflags _ rfl
      have hb1 := Follows.field_fits (by decide) hf1
      obtain ⟨hx1, ho1⟩ := Follows.field_next hl1
      refine .scan hlt1 (.bind (.onText hlt1) fun l2 hl2 _ action s2 _ hacc2 hlt2 => ?_)
      obtain ⟨hx2, ho2⟩ := Follows.scan_next hl2
      refine .covered hlt2 (by omega) (by omega) ?_
      refine .bind (.field (o := 16) (by decide) hlt2) fun l3 hl3 hf3 _ s3 _ hacc3 hlt3 => ?_
      have hb3 := Follows.field_fits (by decide) hf3
      obtain ⟨hx3, ho3⟩ := Follows.field_next hl3
      unfold sizeofConnRec at *
      have hoff : l3.off = 40 := by omega
      have hs3 : s3 = s0 := by omega
      rw [hoff, hs3]
      refine .bind (hname s0 l3.rest hlt0 hge hsmall hb3) fun l4 _ _ name s4 _ hacc4 hlt4 => ?_
      have hroom : e + 0 ≤ b + l4.off + s4 := by
        have : 40 < addrSpace := by decide
        omega
      have hrest := @connRest_follows b e l4.off s4 _ name
        ((skipStr l4.rest " \x7b ".toList).getD l4.rest) _ ((congrArg (· == 0) (type_bit_or flags (x := action.code)
          (by cases action <;> decide))).trans hin) hroom hlt4
      cases hopen : skipStr l4.rest " \x7b ".toList with
      | none =>
        rw [hopen] at hrest
        exact .accept_none hlt4 hopen hrest
      | some t =>
        rw [hopen] at hrest
        exact .accept_some hlt4 hopen hrest
  · intro hsmall hfit
    by_contra hne
    obtain ⟨l, hl⟩ := Option.ne_none_iff_exists'.mp hne
    have := connShape_reach hl
    unfold Shape.Fits at hfit
    unfold sizeofConnRec at hsmall
    omega

/-- A connector among others: the header of the brick leaves more size than room. -/
theorem convertConn_nested {b e size : Nat} {text : Text} (he : e + 24 ≤ b + size)
    (hlt : size < addrSpace) :
    Follows b e 0 size convertConn text (connShape id text) (fun _ => True) := by
  refine convertConn_follows (by omega) hlt fun s t hs hge hsmall hb => ?_
  have : 40 < addrSpace := by decide
  exact .composedIdentifier (by omega) (by omega) hs

/-! ## Bricks -/

theorem scan_andThen_scan {off : Nat} {o : Option Text} {f : Text → Option Text} {g : Landing → Shape} :
    ((Shape.scan off o).andThen fun l => (Shape.scan l.off (f l.rest)).andThen g) =
      (Shape.scan off (o.bind f)).andThen g := by
  cases o with
  | none => rfl
  | some t =>
    cases hf : f t with
    | none => simp [Shape.scan, Shape.andThen, hf]
    | some t' =>
      cases hg : (g ⟨off, 0, t'⟩).next <;> simp [Shape.scan, Shape.andThen, hf, hg]

/-- The keyword of a brick, in parentheses or not. -/
theorem mark_follows {b e off size : Nat} {mask : BitVec 16} (hmask : (mask &&& mask == 0) = false)
    {word text : Text} {f : BitVec 16 → Conv β} {g : Landing → Shape} {Q : β → Prop}
    (hlt : size < addrSpace)
    (hf : ∀ flags rest, b + 2 ≤ e → Follows b e off size (f flags) rest (g ⟨off, 0, rest⟩) Q) :
    Follows b e off size (do
        let flags ← openMark b mask
        expect (skipWord · word) (wordLooks · word)
        closeMark flags mask
        f flags) text
      ((Shape.field 2 off text).andThen fun l => (Shape.scan l.off (markScan word l.rest)).andThen g)
      Q := by
  refine (Follows.bind (openMark_follows (o := 0) hlt)
    (g := fun l => (Shape.scan l.off (markScan word text)).andThen g) ?_).congr rfl
  rintro l hl hfit flags s1 hflags hacc1 hlt1
  have hb := Follows.field_fits (by decide) hfit
  cases hl
  obtain rfl : s1 = size := by simpa using hacc1
  have hzero : (0 &&& mask == 0) = true := by simp
  have htail (l : Landing) (hoff : l.off = off) (hx : l.extra = 0) (s2 : Nat) (hs2 : s2 = s1) :
      Follows b e l.off s2 (f flags) l.rest (g l) Q := by
    obtain ⟨o, x, r⟩ := l
    simp only at hoff hx
    subst hoff hx hs2
    exact hf flags r hb
  unfold markScan
  by_cases hp : (skipWhitespace text).headD '\x00' = '('
  · simp only [hp, if_true] at hflags ⊢
    rw [← scan_andThen_scan]
    refine .bind (.expect hlt1) fun l2 hl2 _ _ s2 _ hacc2 hlt2 => ?_
    obtain ⟨hx2, ho2⟩ := Follows.scan_next hl2
    have hclose := @closeMark_follows b e l2.off s2 flags mask l2.rest hlt2
    simp only [hflags, hzero, if_true] at hclose
    rw [hflags] at htail ⊢
    refine .bind hclose fun l3 hl3 _ _ s3 _ hacc3 hlt3 => ?_
    obtain ⟨hx3, ho3⟩ := Follows.scan_next hl3
    exact htail l3 (by omega) hx3 s3 (by omega)
  · simp only [hp, if_false] at hflags ⊢
    refine .bind (.expect hlt1) fun l2 hl2 _ _ s2 _ hacc2 hlt2 => ?_
    obtain ⟨hx2, ho2⟩ := Follows.scan_next hl2
    rw [hflags] at htail ⊢
    unfold closeMark
    simp only [hmask, Bool.false_eq_true, if_false]
    exact .move rfl rfl hlt2 (htail l2 ho2 hx2 s2 (by omega))

theorem convertBrick_follows {b e size : Nat} {text : Text} (he : e ≤ b + size)
    (hlt : size < addrSpace) :
    Follows b e 0 size convertBrick text (brickShape text) (fun _ => True) := by
  unfold convertBrick brickShape
  refine .here hlt (.skipBin ?_)
  rw [Nat.zero_add, Nat.add_zero]
  refine mark_follows (by decide) hlt fun flags rest hb2 => ?_
  refine .scan hlt (.bind (.onText hlt) fun l1 hl1 _ action s1 _ hacc1 hlt1 => ?_)
  obtain ⟨hx1, ho1⟩ := Follows.scan_next hl1
  simp only at ho1
  refine .covered hlt1 (by omega) (by omega) ?_
  refine .bind (.field (o := 8) (by decide) hlt1) fun l2 hl2 hf2 _ s2 _ hacc2 hlt2 => ?_
  have hb := Follows.field_fits (by decide) hf2
  obtain ⟨hx2, ho2⟩ := Follows.field_next hl2
  unfold sizeofBrickRec at *
  refine .bind (.word (by omega) (by omega) hlt2) fun l3 _ _ name s3 _ hacc3 hlt3 => ?_
  refine .bind (.expect hlt3) fun l4 _ _ _ s4 _ hacc4 hlt4 => ?_
  refine .afterParam hlt4 ?_
  rw [← Shape.andThen_assoc (f := fun l => Shape.list attrShape (l.rest.length + 1) l.off l.rest)
    (g := fun off rest => (Shape.field 32 off rest).andThen fun l =>
      (Shape.list (connShape id) (l.rest.length + 1) l.off l.rest).andThen fun l =>
      Shape.scan l.off (skipStr l.rest " \x7d ".toList))]
  refine .bind (.convertList (k := 0) (o := 16)
    (fun off size text h hl => convertAttr_follows (by omega) hl) attrShape_reach (by omega) hlt4)
    fun l5 _ _ attr s5 _ hacc5 hlt5 => ?_
  rw [← Shape.andThen_assoc (f := fun l => Shape.list (connShape id) (l.rest.length + 1) l.off l.rest)
    (g := fun off rest => Shape.scan off (skipStr rest " \x7d ".toList))]
  refine .bind (.convertList (k := 24) (o := 24)
    (fun off size text h hl => convertConn_nested (by omega) hl)
    (fun text l h => Nat.le_trans (by decide) (connShape_reach h)) (by omega) hlt5)
    fun l6 _ _ conn s6 _ hacc6 hlt6 => ?_
  exact .bind_end (.expect hlt6) fun _ _ _ _ _ _ _ hlt7 => .pure hlt7 trivial

/-! ## A name that the size counts exactly -/

theorem clipTo_fits {b size : Nat} (s : Shape) : (s.clipTo size).Fits b (b + size) := by
  unfold Shape.clipTo Shape.Fits
  split
  · right
    omega
  · exact .inl rfl

theorem word_exact {b off size : Nat} {text : Text} (hlt : size < addrSpace) :
    Follows b (b + off + size) off size convertWord text ((Shape.word off text).clipTo (off + size))
      (fun _ => True) := by
  cases hw : text.takeWhile idTable with
  | nil =>
    have hshape : (Shape.word off text).clipTo (off + size) = ⟨0, none⟩ := by
      simp [Shape.word, hw, Shape.clipTo]
    rw [hshape]
    exact .none_of_run fun bin size => convertWord_stop hw bin size
  | cons c w =>
    have hne : text.takeWhile idTable ≠ [] := by simp [hw]
    obtain ⟨hstores, hres⟩ := convertWord_run hne (b + off) size
    have hshape : Shape.word off text = .field (off + (text.takeWhile idTable).length + 1)
        (off + (text.takeWhile idTable).length + 1) (text.dropWhile idTable) := by
      unfold Shape.word
      rw [hw]
    have hfit : ((Shape.word off text).clipTo (off + size)).Fits b (b + off + size) := by
      rw [Nat.add_assoc]
      exact clipTo_fits _
    refine ⟨fun _ st hst => ?_, fun h => absurd hfit h, fun _ => ?_⟩
    · rw [hstores] at hst
      rcases List.mem_append.mp hst with hst | hst
      · obtain ⟨i, hi, rfl⟩ := List.mem_map.mp hst
        have := List.mem_range.mp hi
        simp only
        omega
      · split at hst
        · cases List.mem_singleton.mp hst
          simp only
          omega
        · cases hst
    · rw [hres, hshape]
      unfold Shape.clipTo Shape.field
      by_cases hlen : (text.takeWhile idTable).length < size
      · rw [if_pos hlen, if_pos (by simp only; omega)]
        refine ⟨text.takeWhile idTable, size - (text.takeWhile idTable).length - 1, ?_, trivial, ?_, ?_⟩
        · simp only [Nat.add_assoc]
        · simp only
          omega
        · omega
      · rw [if_neg hlen, if_neg (by simp only; omega)]
        rfl

/-- Giving up on a word and giving up on the whole identifier come to the same. -/
theorem clipTo_andThen_next {s : Shape} {f : Landing → Shape} {p : Landing → Prop} [DecidablePred p]
    {room : Nat} :
    ((s.clipTo room).andThen fun l => if p l then (f l).clipTo room else .field 0 l.off l.rest).next =
      ((s.andThen fun l => if p l then f l else .field 0 l.off l.rest).clipTo room).next := by
  by_cases hs : s.reach ≤ room
  · have hclip : s.clipTo room = s := if_pos hs
    rw [hclip]
    cases hn : s.next with
    | none => rw [Shape.next_andThen_none hn, Shape.next_andThen_none hn, hclip]
    | some l =>
      by_cases hp : p l
      · by_cases hf : (f l).reach ≤ room
        · simp [Shape.andThen, Shape.clipTo, hn, hp, hs, hf]
        · simp [Shape.andThen, Shape.clipTo, hn, hp, hf]
      · simp [Shape.andThen, Shape.clipTo, Shape.field, hn, hp, hs]
  · have hclip : s.clipTo room = ⟨0, none⟩ := if_neg hs
    have hreach : ¬ (s.andThen fun l => if p l then f l else .field 0 l.off l.rest).reach ≤ room := by
      unfold Shape.andThen
      split
      · exact hs
      · simp only
        omega
    rw [hclip, Shape.clipTo, if_neg hreach]
    rfl

theorem composed_exact {b off size : Nat} (hlt : size < addrSpace) : ∀ (fuel : Nat) (text : Text),
    Follows b (b + off + size) off size (convertWord >>= composedLoop (b + off) size fuel) text
      ((Shape.composed off fuel text).clipTo (off + size)) (fun _ => True)
  | 0, text => .bind_end (word_exact hlt) fun _ _ _ _ _ _ _ hlt' => .pure hlt' trivial
  | fuel + 1, text => by
    have h := Follows.bind (g := fun l => if l.rest.headD '\x00' = '.' then
        (Shape.composed off fuel l.rest.tail).clipTo (off + size) else .field 0 l.off l.rest)
      (f := composedLoop (b + off) size (fuel + 1)) (word_exact (b := b) hlt)
      (Q := fun _ => True) (by
        intro l hl _ a size' _ hacc hlt'
        have hnext : (Shape.word off text).next = some l := by
          unfold Shape.clipTo at hl
          split at hl
          · exact hl
          · cases hl
        have := (Follows.word_next hnext).1
        unfold composedLoop
        refine .peek hlt' ?_
        by_cases hdot : l.rest.headD '\x00' = '.'
        · simp only [hdot, beq_self_eq_true, if_true]
          exact .scan hlt' (.move (m := resetBin (b + off) size) rfl
            (by omega) hlt (composed_exact hlt fuel l.rest.tail))
        · have hne : ¬ (l.rest.headD '\x00' == '.') = true := by simpa using hdot
          simp only [hne, hdot, if_false]
          exact .pure hlt' trivial)
    refine h.equiv (iff_of_true ?_ ?_) fun _ => ?_
    · rw [Nat.add_assoc]
      refine Shape.fits_andThen.mpr ⟨clipTo_fits _, fun l _ => ?_⟩
      split
      · exact clipTo_fits _
      · exact .inl rfl
    · rw [Nat.add_assoc]
      exact clipTo_fits _
    · exact clipTo_andThen_next

/-- The room for the name of a connector that is read into a buffer of its own: its header is the one
header that is charged. A smaller buffer makes the size wrap. -/
def nameRoom (size : Nat) : Shape → Shape := if 40 ≤ size then Shape.clipTo size else id

theorem convertConn_exact {b size : Nat} {text : Text} (hlt : size < addrSpace) :
    Follows b (b + size) 0 size convertConn text (connShape (nameRoom size) text) (fun _ => True) := by
  refine convertConn_follows (Nat.le_refl _) hlt fun s t hs hge hsmall hb => ?_
  unfold nameRoom
  by_cases h : 40 ≤ size
  · have hcomp := @composed_exact b 40 s hs t.length t
    have hsum : 40 + s = size := by have := hge h; omega
    rw [Nat.add_assoc, hsum] at hcomp
    rw [if_pos h]
    exact .cursors hs hcomp
  · have : 40 < addrSpace := by decide
    rw [if_neg h]
    exact .composedIdentifier (by omega) (by omega) hs

/-! ## When the contract is kept -/

/-- The contract in terms of a shape: the stores fit, and a text is not accepted unless all bytes in
front of the new `*binbuf` have been charged. -/
theorem contract_iff {m : Conv α} {c : Cursor} {s : Shape} {P : α → Prop}
    (h : Follows c.bin (c.bin + c.size) 0 c.size m c.text s P) :
    Contract m c ↔ (s.reach ≤ c.size ∧ ∀ l, s.next = some l → l.extra = 0) := by
  have hfit : s.Fits c.bin (c.bin + c.size) ↔ s.reach ≤ c.size := by
    unfold Shape.Fits
    omega
  obtain ⟨text, bin, size⟩ := c
  simp only at h hfit ⊢
  constructor
  · intro hc
    have hin : s.Fits bin (bin + size) := by
      by_contra hno
      obtain ⟨st, hst, hlt⟩ := h.outside hno
      have := (hc.inside st hst).2
      simp only at this
      omega
    refine ⟨hfit.mp hin, fun l hl => ?_⟩
    have hland := h.lands hin
    rw [hl] at hland
    obtain ⟨a, size', hrun, -, hacc, -⟩ := hland
    have hcall : m.call ⟨text, bin, size⟩ = (true, ⟨l.rest, bin + l.off, size'⟩) := by
      unfold Conv.call
      rw [show (m.run ⟨text, bin, size⟩).1 = _ from hrun]
    have := (hc.success (by rw [hcall])).2
    rw [hcall] at this
    simp only at this
    omega
  · rintro ⟨hreach, hextra⟩
    have hin := hfit.mpr hreach
    have hland := h.lands hin
    refine ⟨fun st hst => h.inside hin st hst, fun hs => ?_, fun hs => ?_⟩
    · cases hn : s.next with
      | none =>
        rw [hn] at hland
        unfold Conv.call at hs
        rw [show (m.run ⟨text, bin, size⟩).1 = none from hland] at hs
        cases hs
      | some l =>
        rw [hn] at hland
        obtain ⟨a, size', hrun, -, hacc, -⟩ := hland
        have hcall : m.call ⟨text, bin, size⟩ = (true, ⟨l.rest, bin + l.off, size'⟩) := by
          unfold Conv.call
          rw [show (m.run ⟨text, bin, size⟩).1 = _ from hrun]
        have hx := hextra l hn
        rw [hcall]
        simp only
        omega
    · unfold Conv.call at hs ⊢
      split at hs
      · cases hs
      · rfl

theorem addExtra_charged {n : Nat} (hn : 0 < n) {s : Shape} :
    (∀ l, (s.addExtra n).next = some l → l.extra = 0) ↔ (s.addExtra n).next = none := by
  unfold Shape.addExtra
  cases s.next with
  | none => simp
  | some l =>
    simp only [Option.map_some, Option.some.injEq, forall_eq', reduceCtorEq, iff_false]
    omega

/-- The contract, by a conversion that looks nothing up outside of its tables. -/
def Keeps (m : Conv α) (c : Cursor) : Prop := m.Tabled c ∧ Contract m c

/-- **The conversions keep their contract exactly on the texts whose stores fit the buffer and that
are not accepted, or that stand for a connector without attributes and targets**, where no character
from 128 on is looked up. The headers of bricks, attributes and targets are never charged to the
size. -/
theorem convert_contract (c : Cursor) (hlt : c.size < addrSpace) :
    (Keeps convertConn c ↔ convertConn.Tabled c ∧
      (connShape (nameRoom c.size) c.text).reach ≤ c.size ∧
      ∀ l, (connShape (nameRoom c.size) c.text).next = some l → l.extra = 0) ∧
    (Keeps convertConnTarget c ↔ convertConnTarget.Tabled c ∧
      (targetShape c.text).reach ≤ c.size ∧ (targetShape c.text).next = none) ∧
    (Keeps convertAttr c ↔ convertAttr.Tabled c ∧
      (attrShape c.text).reach ≤ c.size ∧ (attrShape c.text).next = none) ∧
    (Keeps convertBrick c ↔ convertBrick.Tabled c ∧
      (brickShape c.text).reach ≤ c.size ∧ (brickShape c.text).next = none) := by
  refine ⟨and_congr_right fun _ => contract_iff (convertConn_exact hlt), and_congr_right fun _ => ?_,
    and_congr_right fun _ => ?_, and_congr_right fun _ => ?_⟩
  · rw [contract_iff (convertConnTarget_follows (Nat.le_refl _) hlt)]
    exact and_congr_right fun _ => addExtra_charged (by decide)
  · rw [contract_iff (convertAttr_follows (Nat.le_refl _) hlt)]
    exact and_congr_right fun _ => addExtra_charged (by decide)
  · rw [contract_iff (convertBrick_follows (Nat.le_refl _) hlt)]
    exact and_congr_right fun _ => addExtra_charged (by decide)

theorem convert_contract_bare_conn :
    Keeps convertConn ⟨"input==in \x7b\n\x7d\n".toList, 0, 100⟩ := by
  refine (convert_contract ⟨"input==in \x7b\n\x7d\n".toList, 0, 100⟩ (by decide)).1.mpr
    ⟨by decide +kernel, by decide +kernel, fun l hl => ?_⟩
  have hextra : (connShape (nameRoom 100) "input==in \x7b\n\x7d\n".toList).next.map Landing.extra =
      some 0 := by
    decide +kernel
  rw [hl] at hextra
  exact Option.some.inj hextra

/-- One attribute in a buffer of 100 bytes: the pointer moves 28 bytes on, the size loses 4. -/
theorem convert_contract_fails : ¬ ∀ c : Cursor, c.size < addrSpace → Contract convertConn c ∧
    Contract convertConnTarget c ∧ Contract convertAttr c ∧ Contract convertBrick c := by
  intro h
  have hc := (h ⟨"attr a=b\n".toList, 0, 100⟩ (by decide)).2.2.1
  have := ((contract_iff (convertAttr_follows (Nat.le_refl _) (by decide))).mp hc).2
  revert this
  decide +kernel

end Athomux.BinStrat
