import PeImage.Proofs.Image.Sections

/-!
# Lengths of the directory array that are out of range

A file can declare any 32-bit number of directories, and sixteen of them have a meaning. Declaring
more than sixteen is the same as declaring sixteen: the file is loaded with the same headers, or it
is refused for the same reason. The image keeps the file that was given, and the copy that is
decoded in its place differs from it in the four bytes of the length.
-/

namespace PeImage

/-- What the headers of an image say. -/
def Image.headers (image : Image) : Headers :=
  ⟨image.fileHeader, image.optional, image.sections⟩

/-- A file is loaded with the headers of the copy that is decoded in its place. -/
theorem Image.headers_load {file : Bytes} (hbytes : file.size ≠ 0) :
    (load (some file)).map headers = Headers.read (OptionalHeader.countInRange file) := by
  rw [load_some, if_neg hbytes, ofFile, OptionalHeader.countInRange]
  cases Headers.read ((OptionalHeader.clampDirectoryCount? file).getD file) <;> rfl

/-- A loaded image keeps the file that it was loaded from. -/
theorem Image.file_of_load {file : Bytes} {image : Image} (h : load (some file) = .ok image) :
    image.file = file := by
  obtain ⟨_, headers, _, rfl⟩ := (load_eq_ok ..).mp h
  rfl

namespace OptionalHeader

/-- The file with another length of the directory array. -/
def withCount (file : Bytes) (count : UInt32) : Bytes :=
  file.overwrite (countPlace file) (LittleEndian.word32 count)

section Inside

variable {file : Bytes} (hinside : countPlace file + 4 ≤ file.size)

include hinside

/-- Another length changes the bytes of the length alone. -/
theorem agreeOutside_withCount (count : UInt32) :
    (withCount file count).AgreeOutside (countPlace file) (countPlace file + 4) file :=
  Bytes.agreeOutside_overwrite file _ (LittleEndian.word32 count) hinside

/-- Another length stands at the place of the first. -/
theorem countPlace_withCount (count : UInt32) :
    countPlace (withCount file count) = countPlace file :=
  countPlace_eq_of_agreeOutside (agreeOutside_withCount hinside count)

/-- Another length is the one that is read. -/
theorem u32_withCount (count : UInt32) : (withCount file count).u32 (countPlace file) = count :=
  ((Bytes.stores_word32 ..).mp (Bytes.stores_overwrite file _ _ hinside)).2

/-- Of two other lengths the second is what counts. -/
theorem withCount_withCount (first second : UInt32) :
    withCount (withCount file first) second = withCount file second := by
  rw [withCount, countPlace_withCount hinside]
  exact Bytes.overwrite_overwrite file _ (by simp) hinside

end Inside

/-- Sixteen entries are as many as have a meaning. -/
theorem toNat_sixteen : (16 : UInt32).toNat = directoryLimit := by decide

/-- The file is copied exactly where its length lies inside and is out of range, and the copy has
the length sixteen. -/
theorem clampDirectoryCount?_eq_some (file copy : Bytes) :
    clampDirectoryCount? file = some copy ↔
      countPlace file + 4 ≤ file.size ∧ directoryLimit < (file.u32 (countPlace file)).toNat ∧
        copy = withCount file 16 := by
  rw [clampDirectoryCount?_eq, Option.ite_none_right_eq_some, Option.some.injEq, and_assoc,
    withCount, LittleEndian.word32, toNat_sixteen, eq_comm (b := copy)]

/-- A file with a length out of range is decoded as the one with the length sixteen. -/
theorem countInRange_withCount {file : Bytes} (hinside : countPlace file + 4 ≤ file.size)
    {count : UInt32} (hcount : directoryLimit ≤ count.toNat) :
    countInRange (withCount file count) = withCount file 16 := by
  have hplace := countPlace_withCount hinside count
  have hlength := u32_withCount hinside count
  have hsize := (agreeOutside_withCount hinside count).size
  rcases Nat.eq_or_lt_of_le hcount with heq | hlt
  · obtain rfl : count = 16 := UInt32.toNat_inj.mp (toNat_sixteen.trans heq).symm
    exact countInRange_of_le (by rw [hplace, hlength]; exact Nat.le_of_eq toNat_sixteen)
  · have hcopy : clampDirectoryCount? (withCount file count) =
        some (withCount (withCount file count) 16) :=
      (clampDirectoryCount?_eq_some ..).mpr
        ⟨by simpa only [hplace, hsize] using hinside, by rwa [hplace, hlength], rfl⟩
    rw [countInRange, hcopy, Option.getD_some, withCount_withCount hinside]

/-- A copy is decoded as it is. -/
theorem clampDirectoryCount?_withCount {file : Bytes} (hinside : countPlace file + 4 ≤ file.size)
    {count : UInt32} (hcount : count.toNat ≤ directoryLimit) :
    clampDirectoryCount? (withCount file count) = none := by
  rw [clampDirectoryCount?_eq, countPlace_withCount hinside, u32_withCount hinside]
  exact if_neg fun hout => Nat.not_lt.mpr hcount hout.2

end OptionalHeader

namespace Image

open OptionalHeader

/-- A file that declares more than sixteen directories is loaded with the headers that it has with
sixteen, or refused for the same reason, and its image keeps it as it is. What is decoded in its
place is a copy of the same size with other bytes in the length alone, which no further copy is made
of. -/
theorem load_withCount (file : Bytes) :
    (countPlace file + 4 ≤ file.size → ∀ count : UInt32, directoryLimit < count.toNat →
      (load (some (withCount file count))).map headers =
          (load (some (withCount file 16))).map headers ∧
        ∀ image, load (some (withCount file count)) = .ok image →
          image.file = withCount file count) ∧
    ∀ copy, clampDirectoryCount? file = some copy →
      directoryLimit < (file.u32 (countPlace file)).toNat ∧ copy.size = file.size ∧
        (∀ i, i < countPlace file ∨ countPlace file + 4 ≤ i →
          copy.octets[i]? = file.octets[i]?) ∧
        clampDirectoryCount? copy = none := by
  constructor
  · intro hinside count hcount
    have hbytes (other : UInt32) : (withCount file other).size ≠ 0 := by
      rw [(agreeOutside_withCount hinside other).size]
      omega
    refine ⟨?_, fun image => file_of_load⟩
    rw [headers_load (hbytes count), headers_load (hbytes 16),
      countInRange_withCount hinside (Nat.le_of_lt hcount),
      countInRange_withCount hinside (Nat.le_of_eq toNat_sixteen.symm)]
  · intro copy hcopy
    obtain ⟨hinside, hcount, rfl⟩ := (clampDirectoryCount?_eq_some ..).mp hcopy
    have hagree := agreeOutside_withCount hinside 16
    exact ⟨hcount, hagree.size, hagree.byte,
      clampDirectoryCount?_withCount hinside (Nat.le_of_eq toNat_sixteen)⟩

/-- A file with seventeen directories, declared to have as many as can be counted, is loaded with
the section that it has with sixteen. -/
theorem load_withCount_clearFile :
    ∃ image, load (some (withCount clearFile 0xFFFFFFFF)) = .ok image ∧
      image.file = withCount clearFile 0xFFFFFFFF ∧
      image.sections.headers.map (·.virtualSize) = [17] ∧
      clampDirectoryCount? clearFile = some (withCount clearFile 16) ∧
      clampDirectoryCount? (withCount clearFile 16) = none := by
  have hplace : countPlace clearFile = 180 := countPlace_headersOnly ..
  have hinside : countPlace clearFile + 4 ≤ clearFile.size := by
    rw [hplace, clearFile, size_headersOnly]
    exact Nat.le_add_right 184 _
  have hcount : (clearFile.u32 (countPlace clearFile)).toNat = 17 := by
    rw [hplace]
    exact u32_headersOnly ..
  have hcopy : clampDirectoryCount? clearFile = some (withCount clearFile 16) :=
    (clampDirectoryCount?_eq_some ..).mpr ⟨hinside, by rw [hcount]; decide, rfl⟩
  obtain ⟨hload, hclamp⟩ := load_withCount clearFile
  obtain ⟨hsame, hfile⟩ := hload hinside 0xFFFFFFFF (by decide)
  obtain ⟨_, hsize, _, hagain⟩ := hclamp _ hcopy
  have hbytes : (withCount clearFile 16).size ≠ 0 := by omega
  obtain ⟨sample, hsample, hsizes⟩ := load_clearFile
  have hdecoded : Headers.read (withCount clearFile 16) = .ok sample.headers := by
    have hcopied : countInRange clearFile = withCount clearFile 16 := by
      rw [countInRange, hcopy, Option.getD_some]
    rw [← hcopied, ← headers_load (by omega), hsample]
    rfl
  rw [headers_load hbytes, countInRange_withCount hinside (Nat.le_of_eq toNat_sixteen.symm),
    hdecoded] at hsame
  obtain ⟨image, hoversized, hheaders⟩ := map_eq_ok.mp hsame
  refine ⟨image, hoversized, hfile image hoversized, ?_, hcopy, hagain⟩
  rw [← hsizes]
  exact congrArg (·.sections.headers.map (·.virtualSize)) hheaders

end Image

end PeImage
