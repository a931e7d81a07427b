import PeImage.Header.Fields

/-!
# Rich header

Some linkers leave a list of tools between the DOS header and the image header. It ends with the
letters `Rich` and a key, and starts, encrypted by the key, with the letters `DanS`. Nothing of it
is kept, but where its end is found its start has to be found as well, and in between it has to
consist of whole words.
-/

namespace PeImage.RichHeader

/-- The letters `Rich`. -/
def stopMark : UInt32 := 0x68636952

/-- The letters `DanS`. -/
def startMark : UInt32 := 0x536E6144

/-- The first offset at which a test on the stub holds, if `size` bytes from it on lie inside. -/
def firstOffset? (stub : Bytes) (size : Nat) (test : Nat → Bool) : Option Nat :=
  (List.range (stub.size + 1 - size)).find? test

/-- Checks the rich header in the bytes between the DOS header and the image header. -/
def checkStub (stub : Bytes) : Except HeaderFault Unit :=
  match firstOffset? stub 8 (stub.u32 · = stopMark) with
  | none => .ok ()
  | some stop =>
    let key := stub.u32 (stop + 4)
    match firstOffset? stub 4 (stub.u32 · ^^^ key = startMark) with
    | none => .error .richStartMissing
    | some mark =>
      let start := mark + 4
      if stop ≤ start then .error (.richStartPastEnd start stop)
      else if (stop - start) % 4 ≠ 0 then .error (.fieldCut 4 ((stop - start) % 4))
      else .ok ()

/-- Checks the rich header of a file whose image header has a given place. A gap that cannot hold
the end of one is not looked at. -/
def check (file : Bytes) (place : Nat) : Except HeaderFault Unit :=
  if place < 0x44 then .ok () else checkStub (file.clip 0x40 (place - 0x40))

end PeImage.RichHeader
