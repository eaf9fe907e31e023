import Athomux.BinStrat.Spec

/-!
# What `brick_to_string` prints

A buffer that is too small cuts a piece short, and the last check then finds too
little room. So a text that is returned is the whole text.
-/

namespace Athomux.BinStrat

def Item.text : Item → Text
  | .lit s => s
  | .str s => s
  | .addr a => hexUpper a

def itemsText (items : List Item) : Text := items.flatMap Item.text

def connectText (conn : ConnRec) : Text :=
  match conn.target with
  | [] => []
  | target :: more =>
    itemsText (firstTarget conn target) ++ more.flatMap (fun t => itemsText (nextTarget t)) ++ ['\n']

def connText (brick : BrickRec) (conn : ConnRec) : Text :=
  itemsText (connLine conn) ++ conn.attr.flatMap (fun a => itemsText (connAttrLine brick conn a)) ++
    connectText conn ++ "  \x7d\n".toList

/-- The text of a brick when nothing is cut short. -/
def brickText (brick : BrickRec) : Text :=
  itemsText [.lit "brick==".toList, .str brick.name, .lit " \x7b\n".toList] ++
    brick.attr.flatMap (fun a => itemsText (brickAttrLine brick a)) ++
    brick.conn.flatMap (connText brick) ++ "\x7d\n".toList

theorem putString_spec (s : Text) : ∀ {bufsize : Int}, 0 < bufsize →
    ((putItem.putString bufsize s).1 = s ∧ (putItem.putString bufsize s).2 = bufsize - s.length) ∨
    ((putItem.putString bufsize s).2 ≤ 0 ∧
      bufsize - (putItem.putString bufsize s).1.length ≤ 1) := by
  induction s with
  | nil => intro bufsize _; simp [putItem.putString]
  | cons c s ih =>
    intro bufsize hpos
    by_cases h : 1 < bufsize
    · simp only [putItem.putString, h, if_true, List.length_cons, List.cons.injEq, true_and]
      rcases @ih (bufsize - 1) (by omega) with ⟨h1, h2⟩ | ⟨h1, h2⟩
      · left
        refine ⟨h1, ?_⟩
        rw [h2]
        push_cast
        omega
      · right
        refine ⟨h1, ?_⟩
        push_cast
        omega
    · right
      simp only [putItem.putString, h, if_false, List.length_nil]
      omega

/-- An item is written whole, or the buffer is used up. -/
theorem putItem_spec (item : Item) {bufsize : Int} (hpos : 0 < bufsize) :
    ((putItem bufsize item).1 = item.text ∧
      (putItem bufsize item).2 = bufsize - item.text.length) ∨
    ((putItem bufsize item).2 ≤ 0 ∧ bufsize - (putItem bufsize item).1.length ≤ 1) := by
  cases item with
  | lit s =>
    by_cases h : s.length ≤ bufsize.toNat
    · left
      simp [putItem, Item.text, List.take_of_length_le h]
    · right
      simp only [putItem, List.length_take]
      omega
  | str s => exact putString_spec s hpos
  | addr a =>
    by_cases h : (hexUpper a).length ≤ bufsize.toNat - 1
    · left
      simp [putItem, Item.text, List.take_of_length_le h]
    · right
      simp only [putItem, List.length_take, List.length_append, List.length_singleton]
      omega

theorem putItems_spec (items : List Item) : ∀ {bufsize : Int}, 0 < bufsize →
    putItems bufsize items = itemsText items ∨
      bufsize - (putItems bufsize items).length ≤ 1 := by
  induction items with
  | nil => intro bufsize _; left; rfl
  | cons item items ih =>
    intro bufsize hpos
    simp only [putItems, hpos, if_true, itemsText, List.flatMap_cons, List.length_append]
    rcases putItem_spec item hpos with ⟨h1, h2⟩ | ⟨h1, h2⟩
    · by_cases hmore : 0 < (putItem bufsize item).2
      · rcases ih hmore with h | h
        · left
          rw [h1, h]
          rfl
        · right
          rw [h1]
          push_cast
          omega
      · right
        rw [h1]
        push_cast
        omega
    · right
      push_cast
      omega

theorem athsnprintf_spec (len : Int) (items : List Item) :
    athsnprintf len items = itemsText items ∨ len - (athsnprintf len items).length ≤ 2 := by
  by_cases hpos : 0 < len - 1
  · rcases putItems_spec items hpos with h | h
    · exact .inl h
    · right
      simp only [athsnprintf]
      omega
  · right
    omega

namespace Printer

/-- All of `text` is there, or the last check will fail. -/
def Holds (p : Printer) (text : Text) : Prop := p.text = text ∨ p.len ≤ 2

theorem Holds.put {p : Printer} {text : Text} (h : p.Holds text) (items : List Item) :
    (p.put items).Holds (text ++ itemsText items) := by
  simp only [Holds, Printer.put]
  rcases h with h | h
  · rcases athsnprintf_spec p.len items with ha | ha
    · exact .inl (by rw [h, ha])
    · exact .inr ha
  · right
    omega

theorem Holds.foldl_put {α : Type} (f : α → List Item) (l : List α) :
    ∀ {p : Printer} {text : Text}, p.Holds text →
      ((l.map f).foldl Printer.put p).Holds (text ++ l.flatMap fun a => itemsText (f a)) := by
  induction l with
  | nil => intro p text h; simpa using h
  | cons a l ih =>
    intro p text h
    have := ih (h.put (f a))
    simpa [List.append_assoc] using this

theorem Holds.putWhole {p p' : Printer} {text s : Text} {need : Nat} (h : p.Holds text)
    (hput : p.putWhole s need = some p') : p'.Holds (text ++ s) := by
  unfold Printer.putWhole at hput
  split at hput
  · cases hput
  · cases hput
    rcases h with h | h
    · exact .inl (by rw [h])
    · right
      show p.len - need ≤ 2
      omega

theorem Holds.putConnect {p p' : Printer} {text : Text} {conn : ConnRec} (h : p.Holds text)
    (hput : p.putConnect conn = some p') : p'.Holds (text ++ connectText conn) := by
  unfold Printer.putConnect at hput
  unfold connectText
  split at hput
  · rename_i ht
    cases hput
    simpa [ht] using h
  · rename_i target more ht
    have := ((h.put (firstTarget conn target)).foldl_put nextTarget more).putWhole hput
    simpa [ht, List.append_assoc] using this

theorem Holds.putConn {brick : BrickRec} {p p' : Printer} {text : Text} {conn : ConnRec}
    (h : p.Holds text) (hput : p.putConn brick conn = some p') :
    p'.Holds (text ++ connText brick conn) := by
  simp only [Printer.putConn, Option.bind_eq_bind, Option.bind_eq_some_iff] at hput
  obtain ⟨p1, h1, h2⟩ := hput
  have hc := ((h.put (connLine conn)).foldl_put (connAttrLine brick conn) conn.attr).putConnect h1
  simpa [connText, List.append_assoc] using hc.putWhole h2

theorem Holds.foldlM_putConn {brick : BrickRec} (conns : List ConnRec) :
    ∀ {p p' : Printer} {text : Text}, p.Holds text →
      conns.foldlM (Printer.putConn brick) p = some p' →
      p'.Holds (text ++ conns.flatMap (connText brick)) := by
  induction conns with
  | nil =>
    intro p p' text h hput
    cases hput
    simpa using h
  | cons conn conns ih =>
    intro p p' text h hput
    simp only [List.foldlM_cons, Option.bind_eq_bind, Option.bind_eq_some_iff] at hput
    obtain ⟨p1, h1, h2⟩ := hput
    have := ih (h.putConn h1) h2
    simpa [List.append_assoc] using this

end Printer

theorem brickToString_eq {len : Int} {brick : BrickRec} {text : Text}
    (h : brickToString len brick = some text) : text = brickText brick := by
  simp only [brickToString, Option.bind_eq_bind, Option.bind_eq_some_iff, Option.pure_def,
    Option.some.injEq] at h
  obtain ⟨p1, h1, p2, h2, rfl⟩ := h
  have h0 : Printer.Holds ⟨[], len⟩ [] := .inl rfl
  have hp1 := ((h0.put _).foldl_put (brickAttrLine brick) brick.attr).foldlM_putConn _ h1
  have hlen : ¬ p1.len < 3 := by
    intro hlt
    simp [Printer.putWhole, hlt] at h2
  have ht := hp1.resolve_right (by omega)
  simp only [Printer.putWhole, Nat.cast_ofNat, hlen, if_false, Option.some.injEq] at h2
  rw [← h2, ht]
  simp [brickText, List.append_assoc]

end Athomux.BinStrat
