import Athomux.AthStdio.Spec

/-!
# What `athvsnprintf` leaves in the buffer

A piece that does not fit ends the text. A number that does not fit has lost its last character to the
end mark of `snprintf` by then.
-/

namespace Athomux.AthStdio

open NetConnect (Text)

variable {b : Buf} {room : Nat} {p : Piece} {ps : List Piece}

/-! ## The full expansion -/

/-- The pieces of a format. -/
def pieces : Text → Args → List Piece
  | [], _ => []
  | f :: fmt, args =>
    if f ≠ '%' then .put f :: pieces fmt args
    else
      match fmt with
      | [] => [.put '%']
      | conv :: rest =>
        match readPiece conv args with
        | some (p, args) => p :: pieces rest args
        | none => .put '%' :: pieces (conv :: rest) args

/-- A piece where there is room. A value outside of its table has no character. -/
def Piece.full : Piece → Text
  | .put c => [c]
  | .text s plen => s.take plen
  | .entry table n => [table.getD n.toNat '?']
  | .word s => s
  | .number d => d.text

def expansion (ps : List Piece) : Text := ps.flatMap Piece.full

@[simp] theorem expansion_nil : expansion [] = [] := rfl

@[simp] theorem expansion_cons : expansion (p :: ps) = p.full ++ expansion ps := rfl

/-! ## One piece after the other -/

def writeAll : List Piece → Buf → Nat → Option Buf
  | [], b, _ => b.place [nul]
  | p :: ps, b, room =>
    if room = 0 then b.place [nul]
    else (writePiece p b room).bind fun (b, room) => writeAll ps b room

theorem writeAll_zero (ps : List Piece) (b : Buf) : writeAll ps b 0 = b.place [nul] := by
  cases ps with
  | nil => rfl
  | cons p ps => exact if_pos rfl

theorem printAll_eq (fmt : Text) (args : Args) (b : Buf) (room : Nat) :
    printAll fmt args b room = writeAll (pieces fmt args) b room := by
  induction fmt, args, b, room using printAll.induct with
  | case1 args b room => rfl
  | case2 f fmt args b =>
    rw [writeAll_zero]
    unfold printAll
    exact if_pos rfl
  | case3 f fmt args b room hroom hf ih =>
    unfold printAll pieces
    simp only [if_neg hroom, if_pos hf, writeAll, ih]
  | case4 f args b room hroom hf =>
    unfold printAll pieces
    simp only [if_neg hroom, if_neg hf, writeAll]
  | case5 f args b room hroom hf conv rest p args' hread ih =>
    unfold printAll pieces
    simp only [if_neg hroom, if_neg hf, hread, writeAll, ih]
  | case6 f args b room hroom hf conv rest hread ih =>
    unfold printAll pieces
    simp only [if_neg hroom, if_neg hf, hread, writeAll, ih]

/-! ## The buffer -/

namespace Buf

def size (b : Buf) : Nat := b.before.length + b.behind.length

/-- There is room for `room` characters and the end mark. -/
def HasRoom (b : Buf) (room : Nat) : Prop := room < b.behind.length

/-- The characters `t` have been written, and `room` are left. -/
structure Wrote (b : Buf) (t : Text) (b' : Buf) (room : Nat) : Prop where
  before : b'.before = b.before ++ t
  size : b'.size = b.size
  hasRoom : b'.HasRoom room

theorem HasRoom.nothing (h : b.HasRoom room) : b.Wrote [] b room :=
  ⟨(List.append_nil _).symm, rfl, h⟩

theorem Wrote.trans {b' b'' : Buf} {t t' : Text} {room' : Nat} (h : b.Wrote t b' room)
    (h' : b'.Wrote t' b'' room') : b.Wrote (t ++ t') b'' room' :=
  ⟨by rw [h'.before, h.before, List.append_assoc], h'.size.trans h.size, h'.hasRoom⟩

theorem place_some {s : Text} (h : s.length ≤ b.behind.length) :
    b.place s = some { b with behind := s ++ b.behind.drop s.length } := if_pos h

/-- What is placed, and then gone over. -/
theorem place_advance {s : Text} (h : s.length ≤ b.behind.length) (hroom : b.HasRoom (s.length + room)) :
    ∃ b', b.place s = some b' ∧ b.Wrote s (b'.advance s.length) room := by
  refine ⟨_, place_some h, ?_, ?_, ?_⟩
  · exact congrArg (b.before ++ ·) List.take_left
  · simp only [size, advance, List.take_left, List.drop_left, List.length_append, List.length_drop]
    omega
  · simp only [HasRoom, advance, List.drop_left, List.length_drop] at hroom ⊢
    omega

theorem put_some (c : Char) (h : b.HasRoom (room + 1)) :
    ∃ b', b.put c = some b' ∧ b.Wrote [c] b' room := by
  have hfits : [c].length ≤ b.behind.length := Nat.succ_le_of_lt (Nat.zero_lt_of_lt h)
  have hroom : b.HasRoom ([c].length + room) := by rwa [List.length_singleton, Nat.add_comm]
  obtain ⟨b', hplace, hwrote⟩ := place_advance hfits hroom
  exact ⟨b'.advance 1, congrArg (Option.map _) hplace, hwrote⟩

end Buf

/-! ## One piece -/

/-- The piece is written as a whole, or as far as there is room. -/
def Writes (s : Text) (b : Buf) (room : Nat) (r : Option (Buf × Nat)) : Prop :=
  ∃ b' room' t, r = some (b', room') ∧ b.Wrote t b' room' ∧
    ((t = s ∧ room = room' + s.length) ∨ (room' = 0 ∧ t <+: s ∧ room ≤ s.length))

theorem writes_put (c : Char) (h : b.HasRoom (room + 1)) :
    Writes [c] b (room + 1) ((b.put c).map fun b => (b, room)) := by
  obtain ⟨b', hput, hwrote⟩ := b.put_some c h
  rw [hput]
  exact ⟨b', room, [c], rfl, hwrote, Or.inl ⟨rfl, rfl⟩⟩

/-- The next character, and what is written behind it. -/
theorem Writes.cons {c : Char} {s : Text} {b' : Buf} {r : Option (Buf × Nat)}
    (hwrote : b.Wrote [c] b' room) (h : Writes s b' room r) :
    Writes (c :: s) b (room + 1) r := by
  obtain ⟨b'', room', t, hr, ht, hcase⟩ := h
  refine ⟨b'', room', c :: t, hr, hwrote.trans ht, hcase.imp ?_ ?_⟩
  · rintro ⟨rfl, hlen⟩
    exact ⟨rfl, congrArg Nat.succ hlen⟩
  · rintro ⟨hzero, hprefix, hle⟩
    exact ⟨hzero, List.cons_prefix_cons.mpr ⟨rfl, hprefix⟩, Nat.succ_le_succ hle⟩

/-- Nothing is left to write. -/
theorem writes_nil (h : b.HasRoom room) : Writes [] b room (some (b, room)) :=
  ⟨b, room, [], rfl, h.nothing, Or.inl ⟨rfl, rfl⟩⟩

theorem copyText_writes (s : Text) (plen : Nat) (h : b.HasRoom room) (hroom : 0 < room) :
    Writes (s.take plen) b room (copyText s plen b room) := by
  induction s generalizing plen b room with
  | nil =>
    rw [List.take_nil]
    exact writes_nil h
  | cons c s ih =>
    cases plen with
    | zero => exact writes_nil h
    | succ plen =>
      obtain ⟨room, rfl⟩ := Nat.exists_eq_succ_of_ne_zero hroom.ne'
      rw [copyText, List.take_succ_cons]
      split_ifs with hone
      · obtain ⟨b', hput, hwrote⟩ := b.put_some c h
        rw [hput]
        exact (ih plen hwrote.hasRoom (by omega)).cons hwrote
      · -- the last place is left empty
        obtain rfl : room = 0 := by omega
        refine ⟨b, 0, [], rfl, Buf.HasRoom.nothing (Nat.lt_of_succ_lt h), Or.inr ⟨rfl, ?_, ?_⟩⟩
        · exact List.nil_prefix
        · exact Nat.succ_le_succ (Nat.zero_le _)

theorem copyWord_writes (s : Text) (h : b.HasRoom room) :
    Writes s b room (copyWord s b room) := by
  induction s generalizing b room with
  | nil => exact writes_nil h
  | cons c s ih =>
    cases room with
    | zero => exact ⟨b, 0, [], rfl, h.nothing, Or.inr ⟨rfl, List.nil_prefix, Nat.zero_le _⟩⟩
    | succ room =>
      obtain ⟨b', hput, hwrote⟩ := b.put_some c h
      rw [copyWord, if_pos (Nat.succ_pos room), hput]
      exact (ih hwrote.hasRoom).cons hwrote

/-- A number with an end mark behind it. -/
theorem printNumber_writes {d : Numeral} (h : b.HasRoom room) (hlen : d.text.length < room) :
    Writes d.text b room (printNumber d b room) := by
  have htake : d.text.take (room - 1) = d.text := List.take_of_length_le (by omega)
  have hfits : (d.text ++ [nul]).length ≤ b.behind.length := by
    unfold Buf.HasRoom at h
    rw [List.length_append, List.length_singleton]
    omega
  have hn : (if room < d.text.length then room else d.text.length) = d.text.length := by
    split_ifs <;> omega
  unfold printNumber
  rw [htake, Buf.place_some hfits, hn]
  refine ⟨_, room - d.text.length, d.text, rfl, ⟨?_, ?_, ?_⟩, Or.inl ⟨rfl, by omega⟩⟩
  · simp only [Buf.advance, List.append_assoc, List.take_left]
  · simp only [Buf.size, Buf.advance, List.append_assoc, List.take_left, List.drop_left,
      List.length_append, List.length_singleton, List.length_drop] at hfits ⊢
    omega
  · simp only [Buf.HasRoom, Buf.advance, List.append_assoc, List.drop_left, List.length_append,
      List.length_singleton, List.length_drop] at hfits h ⊢
    omega

/-- A number that does not fit: its last character is the end mark. -/
theorem printNumber_cut {d : Numeral} (h : b.HasRoom room) (hroom : 0 < room)
    (hlen : room ≤ d.text.length) :
    ∃ b', printNumber d b room = some (b', 0) ∧ b.Wrote (d.text.take (room - 1) ++ [nul]) b' 0 := by
  have htake : (d.text.take (room - 1) ++ [nul]).length = room := by
    rw [List.length_append, List.length_take, List.length_singleton]
    omega
  have hfits : (d.text.take (room - 1) ++ [nul]).length ≤ b.behind.length := by
    rw [htake]
    exact Nat.le_of_lt h
  have hall : b.HasRoom ((d.text.take (room - 1) ++ [nul]).length + 0) := by
    rw [htake]
    exact h
  obtain ⟨b', hplace, hwrote⟩ := Buf.place_advance hfits hall
  rw [htake] at hwrote
  have hn : (if room < d.text.length then room else d.text.length) = room := by
    split_ifs <;> omega
  refine ⟨b'.advance room, ?_, hwrote⟩
  unfold printNumber
  rw [hplace]
  simp only [Option.map_some, hn, Nat.sub_self]

/-- The value is in its table, and the number has a place for an end mark behind it. -/
def Piece.Fits (room : Nat) : Piece → Prop
  | .entry table n => 0 ≤ n ∧ n < table.length
  | .number d => d.text.length < room
  | _ => True

theorem writePiece_writes (h : b.HasRoom room) (hroom : 0 < room) (hp : p.Fits room) :
    Writes p.full b room (writePiece p b room) := by
  cases p with
  | put c =>
    obtain ⟨room, rfl⟩ := Nat.exists_eq_succ_of_ne_zero hroom.ne'
    exact writes_put c h
  | text s plen => exact copyText_writes s plen h hroom
  | entry table n =>
    obtain ⟨hlow, hhigh⟩ := hp
    obtain ⟨room, rfl⟩ := Nat.exists_eq_succ_of_ne_zero hroom.ne'
    have hn : n.toNat < table.length := by omega
    have hindex : tableIndex table.length n = n.toNat := if_neg (by omega)
    have hget : table.getD n.toNat '?' = table[n.toNat] := by
      rw [List.getD_eq_getElem?_getD, List.getElem?_eq_getElem hn]
      rfl
    simp only [writePiece, Piece.full, hindex, hget, List.getElem?_eq_getElem hn]
    exact writes_put _ h
  | word s => exact copyWord_writes s h
  | number d => exact printNumber_writes h hp

/-- A table is read outside, or a number has lost a character. -/
theorem writePiece_cut (h : b.HasRoom room) (hroom : 0 < room) (hp : ¬p.Fits room) :
    writePiece p b room = none ∨
      ∃ b' t, writePiece p b room = some (b', 0) ∧ b.Wrote (t ++ [nul]) b' 0 ∧
        nul ∉ p.full ∧ (t ++ [nul]).length ≤ p.full.length := by
  cases p with
  | put c => exact absurd trivial hp
  | text s plen => exact absurd trivial hp
  | entry table n =>
    refine Or.inl ?_
    have hout : table.length ≤ tableIndex table.length n := by
      unfold tableIndex Piece.Fits at *
      split_ifs <;> omega
    simp only [writePiece, List.getElem?_eq_none hout]
    rfl
  | word s => exact absurd trivial hp
  | number d =>
    obtain ⟨b', hprint, hwrote⟩ := printNumber_cut h hroom (Nat.le_of_not_lt hp)
    refine Or.inr ⟨b', _, hprint, hwrote, d.noNul, ?_⟩
    have hlen : room ≤ d.text.length := Nat.le_of_not_lt hp
    change _ ≤ d.text.length
    rw [List.length_append, List.length_take, List.length_singleton]
    omega

/-! ## All pieces -/

/-- The text is a part of the expansion from its beginning, with an end mark behind it. -/
def Printed (b : Buf) (full : Text) (r : Option Buf) : Prop :=
  ∃ b' t, r = some b' ∧ b'.size = b.size ∧ b'.before = b.before ++ t ∧ t <+: full ∧
    b'.behind.head? = some nul

/-- The pieces that are come to fit. -/
def AllFit (ps : List Piece) (room : Nat) : Prop :=
  ∀ pre p post, ps = pre ++ p :: post → (expansion pre).length < room →
    p.Fits (room - (expansion pre).length)

theorem place_end (h : b.HasRoom room) :
    ∃ b', b.place [nul] = some b' ∧ b'.size = b.size ∧ b'.before = b.before ∧
      b'.behind.head? = some nul := by
  obtain ⟨before, behind⟩ := b
  cases behind with
  | nil => exact absurd h (Nat.not_lt_zero room)
  | cons x l => exact ⟨⟨before, nul :: l⟩, rfl, rfl, rfl, rfl⟩

theorem printed_nothing (h : b.HasRoom room) (full : Text) : Printed b full (b.place [nul]) := by
  obtain ⟨b', hplace, hsize, hbefore, hend⟩ := place_end h
  exact ⟨b', [], hplace, hsize, hbefore.trans (List.append_nil _).symm, List.nil_prefix, hend⟩

theorem allFit_cons : AllFit (p :: ps) room ↔
    (0 < room → p.Fits room) ∧ (p.full.length < room → AllFit ps (room - p.full.length)) := by
  constructor
  · refine fun h => ⟨fun hroom => h [] p ps rfl hroom, fun _ pre q post hps hlen => ?_⟩
    have hq := h (p :: pre) q post (congrArg (p :: ·) hps)
      (by rw [expansion_cons, List.length_append]; omega)
    rwa [expansion_cons, List.length_append, ← Nat.sub_sub] at hq
  · rintro ⟨hfirst, hrest⟩ pre q post hps hlen
    cases pre with
    | nil =>
      obtain ⟨rfl, -⟩ := List.cons.inj hps
      exact hfirst hlen
    | cons x pre =>
      obtain ⟨rfl, htail⟩ := List.cons.inj hps
      rw [expansion_cons, List.length_append] at hlen ⊢
      rw [← Nat.sub_sub]
      exact hrest (by omega) pre q post htail (by omega)

theorem allFit_zero (ps : List Piece) : AllFit ps 0 :=
  fun _ _ _ _ h => absurd h (Nat.not_lt_zero _)

theorem Printed.append {b' : Buf} {t full : Text} {r : Option Buf} (hwrote : b.Wrote t b' room)
    (h : Printed b' full r) : Printed b (t ++ full) r := by
  obtain ⟨b'', s, hr, hsize, hbefore, hprefix, hend⟩ := h
  refine ⟨b'', t ++ s, hr, hsize.trans hwrote.size, ?_, (List.prefix_append_right_inj t).mpr hprefix, hend⟩
  rw [hbefore, hwrote.before, List.append_assoc]

theorem writeAll_printed (h : b.HasRoom room) (hfit : AllFit ps room) :
    Printed b (expansion ps) (writeAll ps b room) := by
  induction ps generalizing b room with
  | nil => exact printed_nothing h _
  | cons p ps ih =>
    obtain ⟨hfirst, hrest⟩ := allFit_cons.mp hfit
    by_cases hzero : room = 0
    · subst hzero
      rw [writeAll_zero]
      exact printed_nothing h _
    have hroom := Nat.pos_of_ne_zero hzero
    rw [writeAll, if_neg hzero]
    obtain ⟨b', room', t, hwrite, hwrote, ⟨rfl, hlen⟩ | ⟨rfl, hprefix, hlen⟩⟩ :=
      writePiece_writes h hroom (hfirst hroom)
    · rw [hwrite]
      refine (ih hwrote.hasRoom ?_).append hwrote
      obtain rfl | hpos := Nat.eq_zero_or_pos room'
      · exact allFit_zero ps
      · have hsame : room - p.full.length = room' := by omega
        exact hsame ▸ hrest (by omega)
    · rw [hwrite]
      change Printed b _ (writeAll ps b' 0)
      rw [writeAll_zero]
      obtain ⟨b'', hplace, hsize, hbefore, hend⟩ := place_end hwrote.hasRoom
      exact ⟨b'', t, hplace, hsize.trans hwrote.size, hbefore.trans hwrote.before,
        hprefix.trans (List.prefix_append _ _), hend⟩

/-- A table has been read outside, or the text is no part of the expansion. -/
def Spoiled (b : Buf) (full : Text) (r : Option Buf) : Prop :=
  r = none ∨ ∃ b' t, r = some b' ∧ b'.before = b.before ++ t ∧ ¬t <+: full

theorem Spoiled.not_printed {full : Text} {r : Option Buf} (h : Spoiled b full r) :
    ¬Printed b full r := by
  rintro ⟨b', t, rfl, -, hbefore, hprefix, -⟩
  obtain hnone | ⟨b'', t', heq, hbefore', hnot⟩ := h
  · cases hnone
  · cases heq
    rw [hbefore] at hbefore'
    exact hnot (List.append_cancel_left hbefore' ▸ hprefix)

theorem Spoiled.append {b' : Buf} {t full : Text} {r : Option Buf} (hwrote : b.Wrote t b' room)
    (h : Spoiled b' full r) : Spoiled b (t ++ full) r := by
  refine h.imp_right ?_
  rintro ⟨b'', s, hr, hbefore, hnot⟩
  refine ⟨b'', t ++ s, hr, ?_, fun hprefix => hnot ((List.prefix_append_right_inj t).mp hprefix)⟩
  rw [hbefore, hwrote.before, List.append_assoc]

/-- The end mark of a number is in front of the end. -/
theorem not_prefix_of_nul {t s full : Text} (hnul : nul ∉ s) (hlen : (t ++ [nul]).length ≤ s.length) :
    ¬t ++ [nul] <+: s ++ full := fun hprefix => by
  have hs := List.prefix_of_prefix_length_le hprefix (List.prefix_append s full) hlen
  exact hnul (hs.subset (List.mem_append_right _ (List.mem_singleton.mpr rfl)))

theorem writeAll_spoiled (h : b.HasRoom room) (hfit : ¬AllFit ps room) :
    Spoiled b (expansion ps) (writeAll ps b room) := by
  induction ps generalizing b room with
  | nil =>
    refine absurd (fun pre p post hps => ?_) hfit
    exact absurd hps (List.append_ne_nil_of_right_ne_nil _ (List.cons_ne_nil _ _)).symm
  | cons p ps ih =>
    have hroom : 0 < room := by
      by_contra hzero
      obtain rfl : room = 0 := by omega
      exact hfit (allFit_zero _)
    rw [writeAll, if_neg hroom.ne']
    by_cases hp : p.Fits room
    · have hrest : p.full.length < room ∧ ¬AllFit ps (room - p.full.length) := by
        by_contra hnot
        refine hfit (allFit_cons.mpr ⟨fun _ => hp, fun hlt => ?_⟩)
        by_contra hps
        exact hnot ⟨hlt, hps⟩
      obtain ⟨b', room', t, hwrite, hwrote, ⟨rfl, hlen⟩ | ⟨-, -, hlen⟩⟩ :=
        writePiece_writes h hroom hp
      · have hsame : room - p.full.length = room' := by omega
        rw [hwrite]
        exact (ih hwrote.hasRoom (hsame ▸ hrest.2)).append hwrote
      · omega
    · obtain hnone | ⟨b', t, hwrite, hwrote, hnul, hlen⟩ := writePiece_cut h hroom hp
      · rw [hnone]
        exact Or.inl rfl
      · rw [hwrite]
        change Spoiled b _ (writeAll ps b' 0)
        rw [writeAll_zero]
        obtain ⟨b'', hplace, -, hbefore, -⟩ := place_end hwrote.hasRoom
        exact Or.inr ⟨b'', t ++ [nul], hplace, hbefore.trans hwrote.before,
          not_prefix_of_nul hnul hlen⟩

/-- **The buffer holds a part of the expansion exactly when the pieces that are come to fit**: a value
is in its table, and a number has a place behind it. -/
theorem prints_prefix_iff {buf : Text} (hbuf : buf ≠ []) (fmt : Text) (args : Args) :
    (∃ b, athvsnprintf buf fmt args = some b ∧ b.size = buf.length ∧
      b.before <+: expansion (pieces fmt args) ∧ b.behind.head? = some nul) ↔
      ∀ pre p post, pieces fmt args = pre ++ p :: post → (expansion pre).length < buf.length - 1 →
        p.Fits (buf.length - 1 - (expansion pre).length) := by
  have hroom : Buf.HasRoom ⟨[], buf⟩ (buf.length - 1) :=
    Nat.sub_lt (List.length_pos_iff.mpr hbuf) Nat.one_pos
  unfold athvsnprintf
  rw [printAll_eq]
  constructor
  · rintro ⟨b, hb, hsize, hprefix, hend⟩
    by_contra hfit
    refine (writeAll_spoiled hroom hfit).not_printed ⟨b, b.before, hb, ?_, rfl, hprefix, hend⟩
    rw [hsize]
    exact (Nat.zero_add _).symm
  · intro hfit
    obtain ⟨b, t, hb, hsize, hbefore, hprefix, hend⟩ := writeAll_printed hroom hfit
    refine ⟨b, hb, hsize.trans (Nat.zero_add _), ?_, hend⟩
    rw [hbefore]
    exact hprefix

theorem prints_prefix_enum :
    ∃ b, athvsnprintf [' ', ' '] ['%', 'b', '%', 'i'] (fun _ => ⟨1, []⟩) = some b ∧ b.size = 2 ∧
      b.before <+: expansion (pieces ['%', 'b', '%', 'i'] fun _ => ⟨1, []⟩) ∧
      b.behind.head? = some nul := by
  refine (prints_prefix_iff (List.cons_ne_nil _ _) _ _).mpr fun pre p post hps hlen => ?_
  cases pre with
  | nil =>
    obtain ⟨rfl, -⟩ := List.cons.inj hps
    exact ⟨by decide, by decide⟩
  | cons q pre =>
    -- there is no room for the number
    obtain ⟨rfl, -⟩ := List.cons.inj hps
    exact absurd hlen (by simp [Piece.full])

/-- The value 2 is taken for a bool, and of 12345 an end mark is printed before the end. -/
theorem table_overrun_and_lost_digit :
    athvsnprintf [' ', ' '] ['%', 'b'] (fun _ => ⟨2, []⟩) = none ∧
      athvsnprintf [' ', ' ', ' ', ' '] ['%', 'i'] (fun _ => ⟨12345, []⟩) =
        some ⟨['1', '2', nul], [nul]⟩ := by decide

end Athomux.AthStdio
