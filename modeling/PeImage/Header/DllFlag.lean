/-!
# DLL characteristics

The sixteen bits of the characteristics word of an optional header. Every bit has a flag, the low
five being reserved, so a word is exactly the set of its flags.
-/

namespace PeImage

/-- A bit of the DLL characteristics word. -/
inductive DllFlag
  | reserved1 | reserved2 | reserved3 | reserved4
  | reserved5 | highEntropyVa | dynamicBase | forceIntegrity
  | nxCompat | noIsolation | noSeh | noBind
  | appContainer | wdmDriver | guardCf | terminalServerAware
  deriving DecidableEq, Repr

namespace DllFlag

/-- The mask and the flag of each bit, from the lowest bit to the highest. -/
def rows : List (UInt16 × DllFlag) :=
  [(0x0001, reserved1), (0x0002, reserved2), (0x0004, reserved3), (0x0008, reserved4),
    (0x0010, reserved5), (0x0020, highEntropyVa), (0x0040, dynamicBase), (0x0080, forceIntegrity),
    (0x0100, nxCompat), (0x0200, noIsolation), (0x0400, noSeh), (0x0800, noBind),
    (0x1000, appContainer), (0x2000, wdmDriver), (0x4000, guardCf), (0x8000, terminalServerAware)]

/-- The flags from the lowest bit to the highest. -/
def all : List DllFlag := rows.map (·.2)

/-- The word that has only the bit of a flag. -/
def mask (flag : DllFlag) : UInt16 :=
  match rows.find? (·.2 = flag) with
  | some row => row.1
  | none => 0

/-- The name of a flag. -/
def name : DllFlag → String
  | reserved1 => "Reserved1"
  | reserved2 => "Reserved2"
  | reserved3 => "Reserved3"
  | reserved4 => "Reserved4"
  | reserved5 => "Reserved5"
  | highEntropyVa => "HighEntropyVa"
  | dynamicBase => "DynamicBase"
  | forceIntegrity => "ForceIntegrity"
  | nxCompat => "NxCompat"
  | noIsolation => "NoIsolation"
  | noSeh => "NoSeh"
  | noBind => "NoBind"
  | appContainer => "AppContainer"
  | wdmDriver => "WdmDriver"
  | guardCf => "GuardCf"
  | terminalServerAware => "TerminalServerAware"

/-- The flag of a name. -/
def ofName? (name : String) : Option DllFlag := all.find? (·.name = name)

/-- Whether a flag has no meaning assigned. -/
def isReserved : DllFlag → Bool
  | reserved1 | reserved2 | reserved3 | reserved4 | reserved5 => true
  | _ => false

/-- The flags of a word, from the lowest bit to the highest. -/
def ofWord (word : UInt16) : List DllFlag :=
  (rows.filter fun row => word &&& row.1 ≠ 0).map (·.2)

/-- The word that has the bits of the given flags. -/
def toWord (flags : List DllFlag) : UInt16 := flags.foldr (fun flag word => flag.mask ||| word) 0

@[simp] theorem toWord_nil : toWord [] = 0 := rfl

@[simp] theorem toWord_cons (flag : DllFlag) (flags : List DllFlag) :
    toWord (flag :: flags) = flag.mask ||| toWord flags := rfl

/-- Every flag has a row. -/
theorem mem_all (flag : DllFlag) : flag ∈ all := by
  cases flag <;> decide

/-- A row holds the mask of its flag, so no flag has two rows. -/
theorem mask_of_mem_rows : ∀ row ∈ rows, row.2.mask = row.1 := by
  decide

/-- A row is found from its mask as it is from its flag. -/
theorem mem_rows (word : UInt16) (flag : DllFlag) : (word, flag) ∈ rows ↔ flag.mask = word := by
  constructor
  · exact mask_of_mem_rows (word, flag)
  · rintro rfl
    obtain ⟨row, hrow, rfl⟩ := List.mem_map.mp (mem_all flag)
    rwa [mask_of_mem_rows row hrow]

end DllFlag

end PeImage
