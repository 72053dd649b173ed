import GajaeCode.JsString
import GajaeCode.Xxh32
import Mathlib.Data.List.GetD

/-! # Hashline anchors

`packages/coding-agent/src/hashline/hash.ts`.  A line shown to the model carries
a two-letter hash of its content, `LINE+ID|TEXT`; an edit names a line by that
anchor and is refused when the hash no longer matches.

The hash is xxHash32 of the line without carriage returns and trailing white
space, reduced to one of 647 bigrams.  The runtime supplies xxHash32, so it is a
parameter throughout (`xxHash32`); `Xxh32.xxh32` is its concrete value.
-/
namespace GajaeCode
open JsString

def letters : List Char := "abcdefghijklmnopqrstuvwxyz".toList

/-- `bigrams.json`, in its fixed order: all pairs of letters but these. -/
def bigrams : List String :=
  letters.flatMap fun first =>
    let absent := match first with
      | 'b' | 'l' | 'n' | 't' | 'y' => "q"
      | 'g' => "kq"
      | 'j' => "vz"
      | 'k' | 'w' => "qz"
      | 'q' => "fgjkvz"
      | 'r' => "j"
      | 'x' => "gjkqvw"
      | 'z' => "jqv"
      | _ => ""
    (letters.filter (· ∉ absent.toList)).map fun second => String.ofList [first, second]

def hlBigrams : List JsString := bigrams.map js

def hlBodySep : JsString := js "|"

def hlOpInsertBefore : CodeUnit := 0x00ab

def hlOpInsertAfter : CodeUnit := 0x00bb

def hlOpReplace : CodeUnit := 0x2254

def hlFilePrefix : CodeUnit := 0x00a7

section Hash
variable (xxHash32 : List UInt8 → UInt32)

/-- The bytes `computeLineHash` hashes: carriage returns go first, then trailing
white space. -/
def hashedBytes (line : JsString) : List UInt8 :=
  utf8 (trimEnd (line.filter (· != CR)))

/-- `computeLineHash`.  The line number is accepted and ignored. -/
def computeLineHash (_idx : Nat) (line : JsString) : JsString :=
  hlBigrams.getD ((xxHash32 (hashedBytes line)).toNat % hlBigrams.length) []

def formatHashLine (lineNumber : Nat) (line : JsString) : JsString :=
  ofNat lineNumber ++ computeLineHash xxHash32 lineNumber line ++ hlBodySep ++ line

/-- The TypeScript loop of `formatHashLines`, the path taken without the native
addon. -/
def formatHashLines (text : JsString) (startLine : Nat) : JsString :=
  unlines ((lines text).mapIdx (fun i line => formatHashLine xxHash32 (startLine + i) line))

end Hash

theorem hlBigrams_length : hlBigrams.length = 647 := by
  rw [hlBigrams, List.length_map]
  decide +kernel

theorem computeLineHash_mem (xxHash32 : List UInt8 → UInt32) (idx : Nat) (line : JsString) :
    computeLineHash xxHash32 idx line ∈ hlBigrams := by
  have hlt : (xxHash32 (hashedBytes line)).toNat % hlBigrams.length < hlBigrams.length :=
    Nat.mod_lt _ (by rw [hlBigrams_length]; decide)
  rw [computeLineHash, List.getD_eq_getElem _ _ hlt]
  exact List.getElem_mem hlt

theorem letter_of_mem_hlBigrams {bigram : JsString} (h : bigram ∈ hlBigrams) {u : CodeUnit}
    (hu : u ∈ bigram) : 0x61 ≤ u := by
  have hall : (hlBigrams.all fun b => b.all fun u => decide (0x61 ≤ u)) = true := by
    decide +kernel
  exact of_decide_eq_true (List.all_eq_true.mp (List.all_eq_true.mp hall bigram h) u hu)

end GajaeCode
