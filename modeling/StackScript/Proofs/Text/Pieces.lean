import StackScript.Text.Utf8

/-!
# Pieces of text

Writing the pieces of a byte string gives it back, and pieces that stand together in a text are read
again when they are written on their own. A byte below `0x80` is always a character of its own, so a
text can be cut at one wherever it stands.
-/

namespace StackScript

variable {bs s : Bytes} {ps qs : List Piece} {n : Nat} {b c d : UInt8}

namespace Piece

/-! ## The first character -/

/-- The number of a character that has one. -/
theorem val_ofNat {v : Nat} (h : v.isValidChar) : (Char.ofNat v).val.toNat = v := by
  unfold Char.ofNat
  rw [dif_pos h]
  rfl

/-- A byte is what its number says. -/
theorem ofNat_eq (h : n = b.toNat) : UInt8.ofNat n = b := by
  rw [h, UInt8.ofNat_toNat]

/-- A byte is in a range. -/
theorem within_iff {lo hi : UInt8} :
    within lo hi b = true ↔ lo.toNat ≤ b.toNat ∧ b.toNat ≤ hi.toNat := by
  simp [within, UInt8.le_iff_toNat_le]

/-- The bytes that continue a character. -/
theorem continues_iff : continues b = true ↔ 0x80 ≤ b.toNat ∧ b.toNat ≤ 0xBF :=
  within_iff

/-- The second byte of several is high, and narrower behind two first bytes. -/
theorem second_bounds {low high lo hi : UInt8} (hne : low ≠ high) (hlo : 0x80 ≤ lo.toNat)
    (hhi : hi.toNat ≤ 0xBF) (h : (if b = low then within lo 0xBF
      else if b = high then within 0x80 hi else continues) c = true) :
    continues c = true ∧ (b = low → lo.toNat ≤ c.toNat) ∧ (b = high → c.toNat ≤ hi.toNat) := by
  rw [continues_iff]
  split at h
  · rename_i hb
    obtain ⟨hclo, hchi⟩ := within_iff.mp h
    exact ⟨⟨Nat.le_trans hlo hclo, hchi⟩, fun _ => hclo, fun h => absurd (hb.symm.trans h) hne⟩
  · rename_i hb
    split at h
    · obtain ⟨hclo, hchi⟩ := within_iff.mp h
      exact ⟨⟨hclo, Nat.le_trans hchi hhi⟩, fun h => absurd h hb, fun _ => hchi⟩
    · rename_i hb'
      exact ⟨continues_iff.mp h, fun h => absurd h hb, fun h => absurd h hb'⟩

/-- The second byte of three excludes over-long forms and surrogates. -/
theorem second3_bounds (h : second3 b c = true) :
    continues c = true ∧ (b = 0xE0 → 0xA0 ≤ c.toNat) ∧ (b = 0xED → c.toNat ≤ 0x9F) :=
  second_bounds (by decide) (by decide) (by decide) h

/-- The second byte of four excludes over-long forms and what is no character. -/
theorem second4_bounds (h : second4 b c = true) :
    continues c = true ∧ (b = 0xF0 → 0x90 ≤ c.toNat) ∧ (b = 0xF4 → c.toNat ≤ 0x8F) :=
  second_bounds (by decide) (by decide) (by decide) h

/-- A low byte encodes itself. -/
theorem encode_one (hb : b < 0x80) : String.utf8EncodeChar (Char.ofNat b.toNat) = [b] := by
  have hb : b.toNat < 0x80 := hb
  have hval := val_ofNat (v := b.toNat) (.inl (by omega))
  unfold String.utf8EncodeChar
  simp only [hval]
  rw [if_pos (by omega), UInt8.ofNat_toNat]

/-- Two bytes encode the character they are read as. -/
theorem encode_two (hb : within 0xC2 0xDF b = true) (hc : continues c = true) :
    String.utf8EncodeChar (Char.ofNat (b.toNat % 32 * 64 + payload c)) = [b, c] := by
  obtain ⟨hlo, hhi⟩ : 0xC2 ≤ b.toNat ∧ b.toNat ≤ 0xDF := within_iff.mp hb
  obtain ⟨hclo, hchi⟩ := continues_iff.mp hc
  unfold payload
  have hval := val_ofNat (v := b.toNat % 32 * 64 + c.toNat % 64) (.inl (by omega))
  unfold String.utf8EncodeChar
  simp only [hval]
  rw [if_neg (by omega), if_pos (by omega), ofNat_eq (b := b) (by omega),
    ofNat_eq (b := c) (by omega)]

/-- Three bytes encode the character they are read as. -/
theorem encode_three (hb : within 0xE0 0xEF b = true) (hc : second3 b c = true)
    (hd : continues d = true) :
    String.utf8EncodeChar (Char.ofNat (b.toNat % 16 * 4096 + payload c * 64 + payload d)) =
      [b, c, d] := by
  obtain ⟨hlo, hhi⟩ : 0xE0 ≤ b.toNat ∧ b.toNat ≤ 0xEF := within_iff.mp hb
  obtain ⟨hcontinues, hshort, hsurrogate⟩ := second3_bounds hc
  rw [← UInt8.toNat_inj] at hshort hsurrogate
  change b.toNat = 0xE0 → _ at hshort
  change b.toNat = 0xED → _ at hsurrogate
  obtain ⟨hclo, hchi⟩ := continues_iff.mp hcontinues
  obtain ⟨hdlo, hdhi⟩ := continues_iff.mp hd
  unfold payload
  have hval := val_ofNat (v := b.toNat % 16 * 4096 + c.toNat % 64 * 64 + d.toNat % 64) (by
    unfold Nat.isValidChar
    omega)
  unfold String.utf8EncodeChar
  simp only [hval]
  rw [if_neg (by omega), if_neg (by omega), if_pos (by omega), ofNat_eq (b := b) (by omega),
    ofNat_eq (b := c) (by omega), ofNat_eq (b := d) (by omega)]

/-- Four bytes encode the character they are read as. -/
theorem encode_four {e : UInt8} (hb : within 0xF0 0xF4 b = true) (hc : second4 b c = true)
    (hd : continues d = true) (he : continues e = true) :
    String.utf8EncodeChar
      (Char.ofNat (b.toNat % 8 * 262144 + payload c * 4096 + payload d * 64 + payload e)) =
      [b, c, d, e] := by
  obtain ⟨hlo, hhi⟩ : 0xF0 ≤ b.toNat ∧ b.toNat ≤ 0xF4 := within_iff.mp hb
  obtain ⟨hcontinues, hshort, hlast⟩ := second4_bounds hc
  rw [← UInt8.toNat_inj] at hshort hlast
  change b.toNat = 0xF0 → _ at hshort
  change b.toNat = 0xF4 → _ at hlast
  obtain ⟨hclo, hchi⟩ := continues_iff.mp hcontinues
  obtain ⟨hdlo, hdhi⟩ := continues_iff.mp hd
  obtain ⟨helo, hehi⟩ := continues_iff.mp he
  unfold payload
  have hval := val_ofNat (v := b.toNat % 8 * 262144 + c.toNat % 64 * 4096 + d.toNat % 64 * 64 +
    e.toNat % 64) (by
      unfold Nat.isValidChar
      omega)
  unfold String.utf8EncodeChar
  simp only [hval]
  rw [if_neg (by omega), if_neg (by omega), if_neg (by omega), ofNat_eq (b := b) (by omega),
    ofNat_eq (b := c) (by omega), ofNat_eq (b := d) (by omega), ofNat_eq (b := e) (by omega)]

/-- What is known of the first character of a text, which takes `n` bytes behind the first: which
bytes spell it, that they are high, and that nothing behind them matters. -/
structure First (b : UInt8) (bs : Bytes) (c : Char) (n : Nat) : Prop where
  length : n ≤ bs.length
  spelled : String.utf8EncodeChar c = b :: bs.take n
  high : ∀ d ∈ bs.take n, 0x80 ≤ d.toNat
  alone : ∀ more, first? b (bs.take n ++ more) = some (c, n)

/-- A character that is read is encoded by its bytes. -/
theorem first_of_first? {c : Char} (h : first? b bs = some (c, n)) : First b bs c n := by
  -- The first byte tells how many follow: none, one, two or three. The others are looked at only up
  -- to there, so that more text behind them changes nothing.
  unfold first? at h
  split at h
  · rename_i hb
    cases h
    exact ⟨Nat.zero_le _, encode_one hb, List.forall_mem_nil _, fun more => by
      simp [first?, hb]⟩
  · rename_i hb
    split at h
    · rename_i hb2
      split at h
      · rename_i c' _
        split at h
        · rename_i hc
          cases h
          refine ⟨by simp, by simpa using encode_two hb2 hc, ?_, fun more => ?_⟩
          · simpa using (continues_iff.mp hc).1
          · simp [first?, hb, hb2, hc]
        · cases h
      · cases h
    · rename_i hb2
      split at h
      · rename_i hb3
        split at h
        · rename_i c' d' _
          split at h
          · rename_i hcd
            cases h
            obtain ⟨hc, hd⟩ := Bool.and_eq_true_iff.mp hcd
            refine ⟨by simp, by simpa using encode_three hb3 hc hd, ?_, fun more => ?_⟩
            · simpa using ⟨(continues_iff.mp (second3_bounds hc).1).1, (continues_iff.mp hd).1⟩
            · simp [first?, hb, hb2, hb3, hc, hd]
          · cases h
        · cases h
      · rename_i hb3
        split at h
        · rename_i hb4
          split at h
          · rename_i c' d' e' _
            split at h
            · rename_i hcde
              cases h
              obtain ⟨hcd, he⟩ := Bool.and_eq_true_iff.mp hcde
              obtain ⟨hc, hd⟩ := Bool.and_eq_true_iff.mp hcd
              refine ⟨by simp, by simpa using encode_four hb4 hc hd he, ?_, fun more => ?_⟩
              · simpa using ⟨(continues_iff.mp (second4_bounds hc).1).1, (continues_iff.mp hd).1,
                  (continues_iff.mp he).1⟩
              · simp [first?, hb, hb2, hb3, hb4, hc, hd, he]
            · cases h
          · cases h
        · cases h

/-- More text behind a first character does not change it. -/
theorem first?_append {r : Char × Nat} (h : first? b bs = some r) (more : Bytes) :
    first? b (bs ++ more) = some r := by
  have := (first_of_first? h).alone (bs.drop r.2 ++ more)
  rwa [← List.append_assoc, List.take_append_drop] at this

/-- A byte below `0x80` is not part of a character that begins before it. -/
theorem first?_append_low (b : UInt8) (bs : Bytes) (hd : d < 0x80) (more : Bytes) :
    first? b (bs ++ d :: more) = first? b bs := by
  have hd : d.toNat < 0x80 := hd
  cases h : first? b (bs ++ d :: more) with
  | none =>
    cases h' : first? b bs with
    | none => rfl
    | some r => rw [first?_append h'] at h; cases h
  | some r =>
    obtain ⟨c, n⟩ := r
    have hfirst := first_of_first? h
    have hn : n ≤ bs.length := by
      refine Nat.le_of_not_lt fun hlt => ?_
      obtain ⟨k, hk⟩ : ∃ k, n - bs.length = k + 1 := ⟨n - bs.length - 1, by omega⟩
      have hmem : d ∈ (bs ++ d :: more).take n := by
        rw [List.take_append, hk]
        simp
      have := hfirst.high d hmem
      omega
    have halone := hfirst.alone (bs.drop n)
    rw [List.take_append_of_le_length hn, List.take_append_drop] at halone
    exact halone.symm

/-! ## Reading and writing -/

/-- The reader passes over the bytes it is to skip. -/
theorem readOnto_eq (acc : List Piece) (n : Nat) (s : Bytes) :
    readOnto acc n s = acc.reverse ++ read (s.drop n) := by
  have hacc : ∀ (s : Bytes) (n : Nat) (acc : List Piece),
      readOnto acc n s = acc.reverse ++ readOnto [] n s := by
    intro s
    induction s with
    | nil => intro n acc; simp [readOnto]
    | cons b bs ih =>
      intro n acc
      cases n with
      | succ n => rw [readOnto, readOnto, ih]
      | zero =>
        rw [readOnto, readOnto]
        cases first? b bs with
        | none => simp only; rw [ih, ih 0 [stray b]]; simp
        | some r => simp only; rw [ih, ih r.2 [char r.1]]; simp
  rw [hacc]
  congr 1
  induction s generalizing n with
  | nil => cases n <;> rfl
  | cons b bs ih =>
    cases n with
    | zero => rfl
    | succ n => rw [readOnto, List.drop_succ_cons, ih]

/-- No bytes hold no pieces. -/
@[simp] theorem read_nil : read [] = [] := rfl

/-- A character is read in one piece. -/
theorem read_cons_char {c : Char} (h : first? b bs = some (c, n)) :
    read (b :: bs) = char c :: read (bs.drop n) := by
  rw [read, readOnto, h]
  exact readOnto_eq [char c] n bs

/-- A byte that starts no character is a piece. -/
theorem read_cons_stray (h : first? b bs = none) : read (b :: bs) = stray b :: read bs := by
  rw [read, readOnto, h]
  exact readOnto_eq [stray b] 0 bs

/-- A byte below `0x80` is a character. -/
theorem read_cons_low (hb : b < 0x80) (bs : Bytes) :
    read (b :: bs) = char (Char.ofNat b.toNat) :: read bs := by
  have hfirst : first? b bs = some (Char.ofNat b.toNat, 0) := by
    simp [first?, hb]
  exact read_cons_char hfirst

/-- No pieces have no bytes. -/
@[simp] theorem write_nil : write [] = [] := rfl

/-- Pieces are written one after another. -/
@[simp] theorem write_cons (p : Piece) (ps : List Piece) : write (p :: ps) = p.bytes ++ write ps :=
  rfl

/-- Pieces are written in two parts. -/
theorem write_append (ps qs : List Piece) : write (ps ++ qs) = write ps ++ write qs :=
  List.flatMap_append

/-- Every piece of a text and what follows it, from the first on. -/
theorem read_induction {motive : Bytes → Prop} (nil : motive [])
    (char : ∀ b bs c n, first? b bs = some (c, n) → motive (bs.drop n) → motive (b :: bs))
    (stray : ∀ b bs, first? b bs = none → motive bs → motive (b :: bs)) (s : Bytes) : motive s := by
  induction hlength : s.length using Nat.strongRecOn generalizing s with
  | ind k ih =>
    cases s with
    | nil => exact nil
    | cons b bs =>
      rw [List.length_cons] at hlength
      cases h : first? b bs with
      | none => exact stray b bs h (ih _ (by omega) bs rfl)
      | some r => exact char b bs r.1 r.2 h (ih _ (by rw [List.length_drop]; omega) _ rfl)

/-- Writing what was read gives the text. -/
theorem write_read (s : Bytes) : write (read s) = s := by
  induction s using read_induction with
  | nil => rfl
  | char b bs c n h ih =>
    rw [read_cons_char h, write_cons, bytes, (first_of_first? h).spelled, ih, List.cons_append,
      List.take_append_drop]
  | stray b bs h ih => rw [read_cons_stray h, write_cons, bytes, ih, List.singleton_append]

/-- A text is cut at a byte below `0x80`. -/
theorem read_append_low (s : Bytes) (hd : d < 0x80) (more : Bytes) :
    read (s ++ d :: more) = read s ++ read (d :: more) := by
  induction s using read_induction with
  | nil => rfl
  | char b bs c n h ih =>
    have hn := (first_of_first? h).length
    rw [List.cons_append, read_cons_char (by rw [first?_append_low b bs hd, h]), read_cons_char h,
      List.drop_append_of_le_length hn, ih, List.cons_append]
  | stray b bs h ih =>
    rw [List.cons_append, read_cons_stray (by rw [first?_append_low b bs hd, h]),
      read_cons_stray h, ih, List.cons_append]

/-- The last pieces of a text are read again. -/
theorem read_write_right (h : read s = ps ++ qs) : read (write qs) = qs := by
  induction s using read_induction generalizing ps with
  | nil =>
    obtain ⟨-, rfl⟩ := List.append_eq_nil_iff.mp h.symm
    rfl
  | char b bs c n hfirst ih =>
    cases ps with
    | nil => rw [List.nil_append] at h; rw [← h, write_read]
    | cons p ps =>
      rw [read_cons_char hfirst, List.cons_append, List.cons.injEq] at h
      exact ih h.2
  | stray b bs hfirst ih =>
    cases ps with
    | nil => rw [List.nil_append] at h; rw [← h, write_read]
    | cons p ps =>
      rw [read_cons_stray hfirst, List.cons_append, List.cons.injEq] at h
      exact ih h.2

/-- The first pieces of a text are read again. -/
theorem read_write_left (h : read s = ps ++ qs) : read (write ps) = ps := by
  induction s using read_induction generalizing ps with
  | nil =>
    obtain ⟨rfl, -⟩ := List.append_eq_nil_iff.mp h.symm
    rfl
  | char b bs c n hfirst ih =>
    cases ps with
    | nil => rfl
    | cons p ps =>
      rw [read_cons_char hfirst, List.cons_append, List.cons.injEq] at h
      obtain ⟨rfl, hrest⟩ := h
      have hc := first_of_first? hfirst
      have hlength : (bs.take n).length = n := List.length_take_of_le hc.length
      rw [write_cons, bytes, hc.spelled, List.cons_append, read_cons_char (hc.alone _),
        List.drop_append_of_le_length (by omega), List.drop_of_length_le (by omega),
        List.nil_append, ih hrest]
  | stray b bs hfirst ih =>
    cases ps with
    | nil => rfl
    | cons p ps =>
      rw [read_cons_stray hfirst, List.cons_append, List.cons.injEq] at h
      obtain ⟨rfl, hrest⟩ := h
      have hbs : bs = write ps ++ write qs := by rw [← write_append, ← hrest, write_read]
      -- What begins no character in front of more text begins none in front of less.
      have hnone : first? b (write ps) = none := by
        cases hsome : first? b (write ps) with
        | none => rfl
        | some r =>
          rw [hbs, first?_append hsome] at hfirst
          cases hfirst
      rw [write_cons, bytes, List.singleton_append, read_cons_stray hnone, ih hrest]

/-- Pieces that stand together in a text are read again. -/
theorem read_write_middle {rs : List Piece} (h : read s = ps ++ qs ++ rs) :
    read (write qs) = qs := by
  have hright : read (write (qs ++ rs)) = qs ++ rs :=
    read_write_right (h.trans (List.append_assoc ..))
  exact read_write_left hright

/-- A piece has a byte at least. -/
theorem bytes_ne_nil (p : Piece) : p.bytes ≠ [] := by
  cases p with
  | char c =>
    unfold bytes String.utf8EncodeChar
    dsimp only
    repeat' split
    all_goals exact List.cons_ne_nil _ _
  | stray b => exact List.cons_ne_nil _ _

/-- Only no pieces have no bytes. -/
@[simp] theorem write_eq_nil_iff : write ps = [] ↔ ps = [] := by
  cases ps with
  | nil => simp
  | cons p ps => simp [bytes_ne_nil p]

end Piece

end StackScript
