import StackScript.Proofs.Text.Pieces
import StackScript.Text.Blank

/-!
# Words

The words of a text depend on nothing else than where its white space stands. They are those of its
parts where it is cut at a blank below `0x80`, a text without white space is one word, and white
space at the ends of a text changes neither its words nor what it begins with.
-/

namespace StackScript

variable {s : Bytes} {p : Piece} {b : UInt8}

namespace Piece

/-- The longest runs of pieces without white space. -/
def runs (ps : List Piece) : List (List Piece) :=
  (ps.splitOnP isBlank).filter fun w => !w.isEmpty

/-- Nothing holds no runs. -/
theorem runs_nil : runs [] = [] := rfl

/-- A blank ends a run. -/
theorem runs_append_blank (ps qs : List Piece) (hp : p.isBlank = true) :
    runs (ps ++ p :: qs) = runs ps ++ runs qs := by
  rw [runs, List.splitOnP_append_cons ps qs hp, List.filter_append, runs, runs]

/-- A blank in front is passed over. -/
theorem runs_cons_blank (hp : p.isBlank = true) (ps : List Piece) : runs (p :: ps) = runs ps :=
  runs_append_blank [] ps hp

/-- Pieces without white space are one run. -/
theorem runs_eq_singleton {ps : List Piece} (h : ∀ p ∈ ps, p.isBlank = false) (hne : ps ≠ []) :
    runs ps = [ps] := by
  rw [runs, List.splitOnP_eq_singleton h, List.filter_cons_of_pos (by simpa using hne),
    List.filter_nil]

/-- The first run begins where the pieces begin, unless they begin with white space. -/
theorem runs_cons (hp : p.isBlank = false) (ps : List Piece) :
    ∃ w ws, runs (p :: ps) = (p :: w) :: ws := by
  obtain ⟨w, ws, hsplit⟩ := List.exists_cons_of_ne_nil (List.splitOnP_ne_nil isBlank ps)
  refine ⟨w, ws.filter fun w => !w.isEmpty, ?_⟩
  rw [runs, List.splitOnP_cons_eq_if_modifyHead, hp, hsplit]
  rfl

/-- Blanks in front hold no runs. -/
theorem runs_dropWhile (ps : List Piece) : runs (ps.dropWhile isBlank) = runs ps := by
  induction ps with
  | nil => rfl
  | cons p ps ih =>
    cases hp : p.isBlank with
    | true => rw [List.dropWhile_cons_of_pos hp, ih, runs_cons_blank hp]
    | false => rw [List.dropWhile_cons_of_neg (by simp [hp])]

/-- White space at the end makes no run. -/
theorem runs_append_blanks (ps : List Piece) {qs : List Piece} (h : ∀ q ∈ qs, q.isBlank = true) :
    runs (ps ++ qs) = runs ps := by
  cases qs with
  | nil => rw [List.append_nil]
  | cons q qs =>
    have hblanks : ∀ qs : List Piece, (∀ q ∈ qs, q.isBlank = true) → runs qs = [] := by
      intro qs h
      induction qs with
      | nil => rfl
      | cons q qs ih =>
        rw [runs_cons_blank (h q (.head _)), ih fun q hq => h q (.tail _ hq)]
    rw [runs_append_blank ps qs (h q (.head _)), hblanks qs fun q hq => h q (.tail _ hq),
      List.append_nil]

/-- What is dropped at the end is white space. -/
theorem exists_dropBlankEnd (ps : List Piece) :
    ∃ qs, ps = dropBlankEnd ps ++ qs ∧ ∀ q ∈ qs, q.isBlank = true := by
  refine ⟨(ps.reverse.takeWhile isBlank).reverse, ?_, fun q hq => ?_⟩
  · rw [dropBlankEnd, ← List.reverse_append, List.takeWhile_append_dropWhile, List.reverse_reverse]
  · exact List.all_eq_true.mp List.all_takeWhile q (List.mem_reverse.mp hq)

/-- Blanks at the end hold no runs. -/
theorem runs_dropBlankEnd (ps : List Piece) : runs (dropBlankEnd ps) = runs ps := by
  obtain ⟨qs, hps, hqs⟩ := exists_dropBlankEnd ps
  calc runs (dropBlankEnd ps) = runs (dropBlankEnd ps ++ qs) := (runs_append_blanks _ hqs).symm
    _ = runs ps := by rw [← hps]

/-- A piece that is not blank stays. -/
theorem dropBlankEnd_cons (hp : p.isBlank = false) (ps : List Piece) :
    dropBlankEnd (p :: ps) = p :: dropBlankEnd ps := by
  unfold dropBlankEnd
  rw [List.reverse_cons, List.dropWhile_append]
  split
  · rename_i hnil
    rw [List.dropWhile_cons_of_neg (by simp [hp]), List.isEmpty_iff.mp hnil]
    rfl
  · rw [List.reverse_append]
    rfl

/-- The pieces that trimming leaves. -/
def trimmed (ps : List Piece) : List Piece := dropBlankEnd (ps.dropWhile isBlank)

/-- Trimming keeps the runs. -/
theorem runs_trimmed (ps : List Piece) : runs (trimmed ps) = runs ps := by
  rw [trimmed, runs_dropBlankEnd, runs_dropWhile]

/-- What trimming leaves is empty or begins with what is no white space. -/
theorem trimmed_cases (ps : List Piece) :
    trimmed ps = [] ∨ ∃ p rest, p.isBlank = false ∧ trimmed ps = p :: rest := by
  unfold trimmed
  cases hps : ps.dropWhile isBlank with
  | nil => exact .inl rfl
  | cons p rest =>
    have hp : p.isBlank = false := by
      have := List.head?_dropWhile_not isBlank ps
      rw [hps] at this
      simpa using this
    exact .inr ⟨p, dropBlankEnd rest, hp, dropBlankEnd_cons hp rest⟩

end Piece

/-- What was trimmed is read as what trimming left. -/
theorem read_trim (s : Bytes) : Piece.read (trim s) = Piece.trimmed (Piece.read s) := by
  obtain ⟨qs, hqs, -⟩ := Piece.exists_dropBlankEnd ((Piece.read s).dropWhile Piece.isBlank)
  have hread : Piece.read s =
      (Piece.read s).takeWhile Piece.isBlank ++ Piece.trimmed (Piece.read s) ++ qs := by
    rw [List.append_assoc]
    unfold Piece.trimmed
    rw [← hqs, List.takeWhile_append_dropWhile]
  exact Piece.read_write_middle hread

/-- The words are the runs of pieces. -/
theorem words_eq_map (s : Bytes) : words s = (Piece.runs (Piece.read s)).map Piece.write := rfl

/-- Trimming keeps the words. -/
theorem words_trim (s : Bytes) : words (trim s) = words s := by
  rw [words_eq_map, read_trim, Piece.runs_trimmed, words_eq_map]

/-- A trimmed text begins with its first word. -/
theorem head?_trim (s : Bytes) : (trim s).head? = (words s).head?.bind List.head? := by
  have hwrite : trim s = Piece.write (Piece.trimmed (Piece.read s)) := rfl
  rw [hwrite, words_eq_map, ← Piece.runs_trimmed]
  rcases Piece.trimmed_cases (Piece.read s) with hnil | ⟨p, rest, hp, hcons⟩
  · rw [hnil]
    rfl
  · obtain ⟨w, ws, hruns⟩ := Piece.runs_cons hp rest
    obtain ⟨b, bs, hbytes⟩ := List.exists_cons_of_ne_nil p.bytes_ne_nil
    rw [hcons, hruns, List.map_cons, List.head?_cons, Option.bind_some, Piece.write_cons,
      Piece.write_cons, hbytes]
    rfl

/-- A text has no words if nothing is left when it is trimmed. -/
theorem trim_eq_nil_iff (s : Bytes) : trim s = [] ↔ words s = [] := by
  rw [words_eq_map, ← Piece.runs_trimmed]
  have hwrite : trim s = Piece.write (Piece.trimmed (Piece.read s)) := rfl
  rw [hwrite, Piece.write_eq_nil_iff, List.map_eq_nil_iff]
  rcases Piece.trimmed_cases (Piece.read s) with hnil | ⟨p, rest, hp, hcons⟩
  · simp [hnil, Piece.runs_nil]
  · obtain ⟨w, ws, hruns⟩ := Piece.runs_cons hp rest
    simp [hcons, hruns]

/-- Whether a byte is a white space character. -/
def isBlankByte (b : UInt8) : Bool := b < 0x80 && isBlankChar (Char.ofNat b.toNat)

/-- A text has the words in front of a blank and those behind it. -/
theorem words_append_blank (s t : Bytes) (hb : isBlankByte b = true) :
    words (s ++ b :: t) = words s ++ words t := by
  simp only [isBlankByte, Bool.and_eq_true, decide_eq_true_eq] at hb
  have hblank : (Piece.char (Char.ofNat b.toNat)).isBlank = true := hb.2
  rw [words_eq_map, Piece.read_append_low s hb.1, Piece.read_cons_low hb.1,
    Piece.runs_append_blank _ _ hblank, List.map_append, words_eq_map, words_eq_map]

/-- Whether a text is free of white space. -/
def isSolid (s : Bytes) : Bool := (Piece.read s).all fun p => !p.isBlank

/-- A low byte starts a piece of its own. -/
theorem isSolid_append_low (s : Bytes) (hb : b < 0x80) (t : Bytes) :
    isSolid (s ++ b :: t) = (isSolid s && isSolid (b :: t)) := by
  rw [isSolid, Piece.read_append_low s hb, List.all_append, isSolid, isSolid]

/-- A low byte is one piece. -/
theorem isSolid_cons_low (hb : b < 0x80) (t : Bytes) :
    isSolid (b :: t) = (!isBlankByte b && isSolid t) := by
  rw [isSolid, Piece.read_cons_low hb, List.all_cons, isSolid]
  simp [isBlankByte, hb, Piece.isBlank]

/-- A text that is free of white space has no blanks below `0x80`. -/
theorem not_mem_of_isSolid (h : isSolid s = true) (hb : isBlankByte b = true) : b ∉ s := by
  intro hmem
  obtain ⟨l, r, rfl⟩ := List.append_of_mem hmem
  have hlow : b < 0x80 := by
    simp only [isBlankByte, Bool.and_eq_true, decide_eq_true_eq] at hb
    exact hb.1
  rw [isSolid_append_low l hlow, isSolid_cons_low hlow, hb] at h
  simp at h

/-- A text that is free of white space is a word. -/
theorem words_eq_singleton (h : isSolid s = true) (hne : s ≠ []) : words s = [s] := by
  have hread : Piece.read s ≠ [] := by
    intro hnil
    rw [← Piece.write_read s, hnil] at hne
    exact hne rfl
  have hsolid : ∀ p ∈ Piece.read s, p.isBlank = false := by
    simpa [isSolid] using h
  rw [words_eq_map, Piece.runs_eq_singleton hsolid hread, List.map_singleton, Piece.write_read]

end StackScript
