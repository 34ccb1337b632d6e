import RoutineScripts.Proofs.Encoding.Windows1252
import RoutineScripts.Proofs.Files.Overwrite
import RoutineScripts.Sync

/-!
# Writing files back

A file that is read and written back without a change holds the bytes that it held before, unless
they start with a byte order mark and are not well-formed UTF-8 (`SourceFile.save_load_iff`). Such a
file is read in the encoding of its mark, and the mark is dropped; but what is kept with its text is
that it was Windows-1252 (`SourceFile.save_load_ne_of_marked`).
-/

namespace RoutineScripts

/-- **Bytes are written back** unless they start with a mark and are not well-formed UTF-8. -/
theorem SourceEncoding.encode_decode_iff (bytes : Bytes) :
    (decode bytes).2.encode (decode bytes).1 = bytes ↔
      (Utf8.decode? bytes).isSome = true ∨ Windows1252.isMarked bytes = false := by
  rw [decode]
  cases decoded : Utf8.decode? bytes with
  | none =>
      simp only [Option.isSome_none, Bool.false_eq_true, false_or, encode]
      cases marked : Windows1252.isMarked bytes with
      | true => exact iff_of_false (Windows1252.encode_sniff_ne marked) (by decide)
      | false =>
          rw [Windows1252.sniff_of_not_isMarked marked]
          exact iff_of_true (Windows1252.encode_decode bytes) rfl
  | some text =>
      have back := Utf8.encode_of_decode? decoded
      refine iff_of_true ?_ (Or.inl rfl)
      cases text with
      | nil => exact back
      | cons c rest =>
          by_cases mark : c = byteOrderMark
          · simp only [encode, ← mark]
            exact back
          · simp only [if_neg mark, encode]
            exact back

namespace SourceFile

/-- A file that is saved is written in its own encoding. -/
theorem write_of_save {file : SourceFile} {content : Text} {disk next : Disk}
    (saved : file.save content disk = .ok next) :
    disk.write file.path (file.encoding.encode content) = .ok next := by
  rw [save] at saved
  split at saved
  case h_1 => cases saved
  case h_2 written =>
    cases saved
    exact written

/-- A file that cannot be saved is one that the disk does not let be written. -/
theorem write_of_save_error {file : SourceFile} {content : Text} {disk left : Disk}
    {error : SyncError} (unsaved : file.save content disk = .error (error, left)) :
    ∃ fault, error = .unwritable file.path fault ∧
      disk.write file.path (file.encoding.encode content) = .error (fault, left) := by
  rw [save] at unsaved
  split at unsaved
  case h_1 fault _ refused =>
    cases unsaved
    exact ⟨fault, rfl, refused⟩
  case h_2 => cases unsaved

/-- **Writing back.** A file that can be read can be written back, unless the system refuses to
write it, and no other file changes. It holds the same bytes again exactly when they are well-formed
UTF-8 or do not start with a byte order mark. -/
theorem save_load_iff {disk : Disk} {path : Text} {bytes : Bytes}
    (stored : disk.read path = .ok bytes) :
    ∃ file place, load disk path = .ok file ∧ disk.place? path = some place ∧
      ((∃ next, file.save file.content disk = .ok next) ↔ disk.failures.writing place = none) ∧
      ∀ next, file.save file.content disk = .ok next →
        disk.SameShape next ∧
        (∀ other, disk.place? other ≠ disk.place? path → next.read other = disk.read other) ∧
        (next.read path = .ok bytes ↔
          (Utf8.decode? bytes).isSome = true ∨ Windows1252.isMarked bytes = false) := by
  obtain ⟨place, found, readable, _⟩ := Disk.read_eq_ok_iff.mp stored
  let file : SourceFile :=
    ⟨path, (SourceEncoding.decode bytes).1, (SourceEncoding.decode bytes).2⟩
  have loaded : load disk path = .ok file := by rw [load, stored]
  refine ⟨file, place, loaded, found, ⟨?_, fun allowed => ?_⟩, fun next saved => ?_⟩
  · rintro ⟨next, saved⟩
    exact (Disk.of_write found (write_of_save saved)).1
  · obtain ⟨next, written⟩ := Disk.exists_write found allowed (file.encoding.encode file.content)
    exact ⟨next, by rw [save, written]⟩
  · obtain ⟨_, shape, files⟩ := Disk.of_write found (write_of_save saved)
    refine ⟨shape, fun other elsewhere => ?_, ?_⟩
    · refine shape.read_eq fun there leads => ?_
      rw [files, if_neg]
      rintro rfl
      exact elsewhere (leads.trans found.symm)
    · have again : next.read path = .ok (file.encoding.encode file.content) :=
        Disk.read_eq_ok_iff.mpr ⟨place, (shape.place? path).symm.trans found,
          shape.failures ▸ readable, (files place).trans (if_pos rfl)⟩
      rw [again, Except.ok.injEq]
      exact SourceEncoding.encode_decode_iff bytes

/-- A file of all bytes above ASCII beside one in UTF-8 with a mark. -/
theorem save_load_iff_upper :
    let upper := (List.range' 0x80 0x80).map UInt8.ofNat
    let disk := (Disk.empty.putFile ["work".toList, "f.sql".toList] upper).putFile
      ["work".toList, "g.sql".toList] [0xEF, 0xBB, 0xBF, 0x41]
    ∃ file next, disk.read "f.sql".toList = .ok upper ∧
      load disk "f.sql".toList = .ok file ∧ file.encoding = .windows1252 ∧
      file.save file.content disk = .ok next ∧ next.read "f.sql".toList = .ok upper ∧
      next.read "g.sql".toList = .ok [0xEF, 0xBB, 0xBF, 0x41] := by
  intro upper disk
  have stored : disk.read "f.sql".toList = .ok upper := by rfl
  have beside : disk.read "g.sql".toList = .ok [0xEF, 0xBB, 0xBF, 0x41] := by rfl
  have decoded : (SourceEncoding.decode upper).2 = .windows1252 := by decide +kernel
  obtain ⟨file, place, loaded, found, writable, kept⟩ := save_load_iff stored
  obtain ⟨next, saved⟩ := writable.mpr (by cases found; rfl)
  obtain ⟨_, others, same⟩ := kept next saved
  have encoding : file.encoding = .windows1252 := by
    rw [load, stored] at loaded
    cases loaded
    exact decoded
  exact ⟨file, next, stored, loaded, encoding, saved, same.mpr (Or.inr (by decide)),
    (others _ (by decide)).trans beside⟩

/-- **A mark that is lost.** A file in UTF-16 is written back as Windows-1252. -/
theorem save_load_ne_of_marked :
    let bytes : Bytes := [0xFF, 0xFE, 0x41, 0x00]
    let disk := Disk.empty.putFile ["work".toList, "f.sql".toList] bytes
    ∃ file next, disk.read "f.sql".toList = .ok bytes ∧
      load disk "f.sql".toList = .ok file ∧ file.content = "A".toList ∧
      file.encoding = .windows1252 ∧ file.save file.content disk = .ok next ∧
      next.read "f.sql".toList = .ok [0x41] := by
  intro bytes disk
  have stored : disk.read "f.sql".toList = .ok bytes := by rfl
  have decoded : SourceEncoding.decode bytes = ("A".toList, .windows1252) := by decide +kernel
  refine ⟨⟨"f.sql".toList, "A".toList, .windows1252⟩,
    disk.putFile ["work".toList, "f.sql".toList] [0x41], stored, ?_, rfl, rfl, by rfl, by rfl⟩
  rw [load, stored]
  simp only [decoded]

end SourceFile

end RoutineScripts
