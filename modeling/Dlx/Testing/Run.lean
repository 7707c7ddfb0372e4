import Dlx.Assembly
import Dlx.Elf.Writer
import Dlx.Testing.Case
import Dlx.Link.Linker
import Dlx.Listing

/-!
# Running test cases

The command `encode` assembles the sources of a case and lists the objects; `link` links them and
lists the image. Faults of the sources are part of what is printed; a header that cannot be followed
stops the run.
-/
namespace Dlx.Testing

/-- Why a case cannot be run. -/
inductive HeaderFault where
  | unknownOption (text : String)
  | badNumber (text : String)
  deriving DecidableEq

def HeaderFault.message : HeaderFault → String
  | .unknownOption text => "unknown option: " ++ text
  | .badNumber text => "bad number: " ++ text

/-! ## Encoding -/

/-- Whether distances are resolved by the assembler; `relocate-all` leaves them to the linker. -/
def localPcOf : List String → Except HeaderFault Bool
  | [] => .ok true
  | option :: rest =>
    if option = "relocate-all" then do
      let _ ← localPcOf rest
      return false
    else .error (.unknownOption option)

/-- Data, four bytes to a line. -/
def dataLines (offset : Nat) (bytes : Bytes) : String :=
  match bytes with
  | a :: b :: c :: d :: rest =>
    Text.hex 4 offset ++ ": " ++
      String.intercalate " " ([a, b, c, d].map (Text.hex 2 ·.toNat)) ++ "\n" ++
      dataLines (offset + 4) rest
  | [] => ""
  | rest =>
    Text.hex 4 offset ++ ": " ++ String.intercalate " " (rest.map (Text.hex 2 ·.toNat)) ++ "\n"

def relocLine (r : Reloc RelocType) : String :=
  "reloc 0x" ++ Text.hex 4 r.offset.toNat ++ " " ++ r.type.name ++ " " ++ r.symbol ++
    Text.explicitSigned r.addend.toInt ++ "\n"

def sectionLines (s : Section RelocType) : String :=
  let body := match s.kind with
    | .text => listing s.data
    | .data => dataLines 0 s.data
  "section " ++ s.name ++ "\n" ++ body ++ String.join (s.relocs.map relocLine)

def symbolLine (sections : List (Section RelocType)) (s : Symbol) : String :=
  let place := match s.home.bind (sections[·]?) with
    | some home => home.name ++ "+0x" ++ Text.hex 0 s.value.toNat
    | none => "undefined"
  "symbol " ++ s.name ++ " " ++ place ++ (if s.isGlobal then " global" else " local") ++ "\n"

def objectLines (o : Object RelocType) : String :=
  String.join (o.sections.map sectionLines) ++
    String.join (o.symbols.map (symbolLine o.sections))

def encodeSource (localPc : Bool) (s : Source) : String :=
  "object " ++ s.name ++ "\n" ++
    match assemble localPc s.text with
    | .ok o => objectLines o
    | .error e => "error: " ++ e.message ++ "\n"

def runEncode (c : Case) : Except HeaderFault String := do
  let localPc ← localPcOf c.options
  return String.join (c.sources.map (encodeSource localPc))

/-! ## Linking -/

/-- A 32-bit number, hexadecimal after `0x`. -/
def readWord (cs : List Char) : Except HeaderFault UInt32 :=
  let value := match cs with
    | '0' :: 'x' :: digits => Text.readUpTo? 16 0xffffffff digits
    | _ => Text.readUpTo? 10 0xffffffff cs
  match value with
  | some n => .ok (UInt32.ofNat n)
  | none => .error (.badNumber (String.ofList cs))

structure LinkSetup where
  linker : Linker
  options : LinkSettings

/-- Follows an option line: the setup after it, and a fault to print. -/
def setOption (s : LinkSetup) (option : String) :
    Except HeaderFault (LinkSetup × Option LinkError) := do
  match (Text.words option.toList).map fun w => (String.ofList w, w) with
  | [("base", _), (_, address)] =>
    return ({ s with options := { s.options with base := ← readWord address } }, none)
  | [("entry", _), (name, _)] =>
    return ({ s with options := { s.options with entry := some name } }, none)
  | [("define", _), (name, _), (_, address)] =>
    let (linker, fault) := s.linker.define name (← readWord address)
    return ({ s with linker := linker }, fault)
  | _ => throw (.unknownOption option)

/-- Follows the option lines up to the first fault. -/
def setOptions (s : LinkSetup) :
    List String → Except HeaderFault (LinkSetup × Option LinkError)
  | [] => .ok (s, none)
  | option :: rest => do
    match ← setOption s option with
    | (s, none) => setOptions s rest
    | (s, some fault) => return (s, some fault)

def errorLine (message : String) : String := "error: " ++ message ++ "\n"

/-- Adds the objects of the sources, or gives the line that says why not. -/
def addSources (l : Linker) : List Source → Except String Linker
  | [] => .ok l
  | s :: rest => do
    let o ← (assemble true s.text).mapError fun e => errorLine (s.name ++ ": " ++ e.message)
    let l ← (l.addFile (Elf.writeObject o)).mapError fun e =>
      errorLine (s.name ++ ": " ++ e.message)
    addSources l rest

/-- The words of an image from `address` on; code ends at `textEnd`. -/
def imageLines (address textEnd : Nat) : Bytes → String
  | a :: b :: c :: d :: rest =>
    let word := bytesWord [a, b, c, d]
    let text := if address < textEnd then wordText word else ".word"
    Text.hex 8 address ++ ": " ++ Text.hex 8 word.toNat ++ "  " ++ text ++ "\n" ++
      imageLines (address + 4) textEnd rest
  | _ => ""

def imageListing (i : Image) : String :=
  "entry 0x" ++ Text.hex 8 i.entry.toNat ++ "\n" ++
    String.join (i.symbols.entries.map fun (name, address) =>
      "symbol " ++ name ++ " 0x" ++ Text.hex 8 address.toNat ++ "\n") ++
    imageLines i.base.toNat (i.base.toNat + i.textSize.toNat) i.bytes

/-- Links sources, and gives the listing of the image or the line that says why there is none. -/
def linkSources (s : LinkSetup) (sources : List Source) : Except String String := do
  let l ← addSources s.linker sources
  let image ← (l.link s.options).mapError fun e => errorLine e.message
  return imageListing image

def runLink (c : Case) : Except HeaderFault String := do
  match ← setOptions ⟨.empty, ⟨0, none⟩⟩ c.options with
  | (_, some fault) => return errorLine fault.message
  | (s, none) =>
    match linkSources s c.sources with
    | .ok text | .error text => return text

end Dlx.Testing
