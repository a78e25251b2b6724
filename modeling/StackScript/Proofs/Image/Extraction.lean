import StackScript.Image.Executable
import StackScript.Proofs.Image.RoundTrip

/-!
# Program files behind loaders

An executable is taken apart from its end: its last eight bytes are the size of the program file in
front of them, and what is left is the loader. This succeeds for exactly the byte strings that have
these parts (`Executable.extract_iff`), whatever the size says.

Whether bytes are a program file or an executable is told by how they begin. With a loader shorter
than the marker that beginning lies partly in the program file, but no proper end of the marker is
also a beginning of it, so the front of an executable looks like a program file only if its loader
does.
-/

namespace StackScript

/-! ## The parts of an executable -/

namespace Executable

/-- A program file and the size of its loader are found if and only if the bytes are a loader of
that size, the program file and its length in eight bytes. -/
theorem extract_iff (exe payload : Bytes) (size : Nat) :
    extract exe = .ok (payload, size) ↔ ∃ loader trailer, exe = loader ++ payload ++ trailer ∧
      loader.length = size ∧ Word trailerSize payload.length trailer ∧
      headerSize ≤ payload.length ∧ Image.isImage payload = true := by
  unfold extract
  simp only
  constructor
  · intro h
    split at h
    · cases h
    · rename_i hroom
      -- The bytes behind the loader, of which the last eight are the size.
      generalize hn : ofLittleEndian (exe.drop (exe.length - trailerSize)) = n at h
      split at h
      · cases h
      · rename_i hsize
        simp only [Bool.or_eq_true, decide_eq_true_eq, not_or, Nat.not_lt] at hsize
        split at h
        · rename_i hmarker
          cases h
          have hpayload : ((exe.drop (exe.length - trailerSize - n)).take n).length = n := by
            rw [List.length_take, List.length_drop]
            omega
          refine ⟨exe.take (exe.length - trailerSize - n), exe.drop (exe.length - trailerSize),
            ?_, ?_, ⟨?_, ?_⟩, ?_, hmarker⟩
          · have hbehind : exe.drop (exe.length - trailerSize) =
                (exe.drop (exe.length - trailerSize - n)).drop n := by
              rw [List.drop_drop, Nat.sub_add_cancel hsize.2]
            rw [hbehind, List.append_assoc, List.take_append_drop, List.take_append_drop]
          · rw [List.length_take]
            omega
          · rw [List.length_drop]
            omega
          · rw [hn, hpayload]
          · rw [hpayload]
            exact hsize.1
        · cases h
  · rintro ⟨loader, trailer, rfl, rfl, hword, hheader, hmarker⟩
    have hlength : (loader ++ payload ++ trailer).length - trailerSize =
        (loader ++ payload).length := by
      rw [List.length_append, hword.length, Nat.add_sub_cancel]
    have hparts : (loader ++ payload).length = loader.length + payload.length :=
      List.length_append
    have hfound : ((loader ++ payload ++ trailer).drop
        ((loader ++ payload).length - payload.length)).take payload.length = payload := by
      rw [hparts, Nat.add_sub_cancel, List.append_assoc, List.drop_left, List.take_left]
    have hroom : ¬ (loader ++ payload ++ trailer).length < trailerSize + headerSize := by
      rw [List.length_append, hword.length, hparts]
      omega
    have hfits : ¬ ((payload.length < headerSize || (loader ++ payload).length < payload.length) =
        true) := by
      simp only [Bool.or_eq_true, decide_eq_true_eq, not_or, Nat.not_lt]
      omega
    have hstarts : startsWith Image.marker payload = true := hmarker
    rw [if_neg hroom, hlength, List.drop_left, hword.value, if_neg hfits, hfound, if_pos hstarts,
      hparts, Nat.add_sub_cancel]

/-- What is packed behind a loader is found again. -/
theorem extract_pack (loader : Bytes) {payload : Bytes} (hmarker : Image.isImage payload = true)
    (hheader : headerSize ≤ payload.length) (hsize : payload.length < 0x10000000000000000) :
    extract (pack loader payload) = .ok (payload, loader.length) :=
  (extract_iff ..).mpr ⟨loader, _, rfl, rfl, word_littleEndian 8 hsize, hheader, hmarker⟩

end Executable

/-! ## How bytes begin -/

namespace Image

/-- No proper end of the marker is a beginning of it. -/
theorem marker_drop {n : Nat} (hpos : 0 < n) (hlt : n < marker.length) :
    ¬marker.drop n <+: marker := by
  have hall : ∀ n : Fin 16, 0 < n.val → ¬marker.drop n.val <+: marker := by decide
  exact hall ⟨n, hlt⟩ hpos

/-- What begins with a loader looks like a program file only if the loader does. -/
theorem isImage_append {loader payload : Bytes} (hloader : loader ≠ [])
    (hmarker : isImage loader = false) (hpayload : isImage payload = true) (rest : Bytes) :
    isImage (loader ++ (payload ++ rest)) = false := by
  unfold isImage startsWith at hmarker hpayload ⊢
  rw [Bool.eq_false_iff, ne_eq, List.isPrefixOf_iff_prefix] at hmarker ⊢
  rw [List.isPrefixOf_iff_prefix] at hpayload
  intro hfront
  have hprefix : loader <+: loader ++ (payload ++ rest) := List.prefix_append _ _
  by_cases hlength : marker.length ≤ loader.length
  · exact hmarker (List.prefix_of_prefix_length_le hfront hprefix hlength)
  · -- A shorter loader would be a beginning of the marker, and the rest of the marker would be one
    -- of the payload, so of the marker.
    obtain ⟨tail, htail⟩ :=
      List.prefix_of_prefix_length_le hprefix hfront (Nat.le_of_not_le hlength)
    have hdrop : marker.drop loader.length = tail := by rw [← htail, List.drop_left]
    have hbegins : tail <+: payload ++ rest := by
      rw [← htail] at hfront
      exact (List.prefix_append_right_inj loader).mp hfront
    have hshort : tail.length ≤ marker.length := by
      rw [← htail, List.length_append]
      exact Nat.le_add_left _ _
    have hborder : tail <+: marker := List.prefix_of_prefix_length_le hbegins
      (hpayload.trans (List.prefix_append _ _)) hshort
    exact marker_drop (List.length_pos_iff.mpr hloader) (Nat.lt_of_not_le hlength)
      (hdrop ▸ hborder)

/-- A program file is loaded from behind a loader. -/
theorem load_pack {loader payload : Bytes} (hloader : loader ≠ [])
    (hmarker : isImage loader = false) (hpayload : isImage payload = true)
    (hheader : headerSize ≤ payload.length) (hsize : payload.length < 0x10000000000000000) :
    load (Executable.pack loader payload) = decode payload := by
  have hfront : isImage (Executable.pack loader payload) = false := by
    rw [Executable.pack, List.append_assoc]
    exact isImage_append hloader hmarker hpayload _
  unfold load
  rw [hfront, Executable.extract_pack loader hpayload hheader hsize]
  rfl

end Image

/-- Executables are taken apart as they are put together. A program file is found in exactly the
byte strings that are a loader, the file and the length of the file, and behind a loader that does
not look like a program file, whatever bytes it ends in, a file is loaded as on its own: the same
image or the same fault. -/
theorem executable_parts :
    (∀ exe payload size, Executable.extract exe = .ok (payload, size) ↔
      ∃ loader trailer, exe = loader ++ payload ++ trailer ∧ loader.length = size ∧
        Word Executable.trailerSize payload.length trailer ∧ headerSize ≤ payload.length ∧
        Image.isImage payload = true) ∧
    ∀ loader payload, loader ≠ [] → Image.isImage loader = false →
      Image.isImage payload = true → headerSize ≤ payload.length →
      payload.length < 0x10000000000000000 →
      Image.load (Executable.pack loader payload) = Image.decode payload :=
  ⟨Executable.extract_iff, fun _ _ => Image.load_pack⟩

/-- All but the last byte of the marker as a loader, in front of the file of an empty program and in
front of one with a wrong length. -/
theorem executable_parts_markerFront :
    Executable.extract (Executable.pack (Image.marker.take 15) (Image.header 0 0 0 .zero)) =
        .ok (Image.header 0 0 0 .zero, 15) ∧
      Image.load (Executable.pack (Image.marker.take 15) (Image.header 0 0 0 .zero)) =
        .ok { constants := [], code := [], created := .zero } ∧
      Image.load (Executable.pack (Image.marker.take 15) (Image.header 0 0 1 .zero)) =
        .error (.corrupt (.length 57 56)) := by
  refine ⟨?_, ?_, ?_⟩
  · exact (executable_parts.1 _ _ _).mpr ⟨Image.marker.take 15, _, rfl, rfl, ⟨rfl, by decide⟩,
      by decide, by decide⟩
  · rw [executable_parts.2 _ _ (by decide) (by decide) (by decide) (by decide) (by decide)]
    rfl
  · rw [executable_parts.2 _ _ (by decide) (by decide) (by decide) (by decide) (by decide)]
    rfl

end StackScript
