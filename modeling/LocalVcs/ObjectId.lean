/-
# Object ids

An object is named by the SHA-1 of its encoding: forty hexadecimal digits in lower case.

This is `ObjectId`: `ofEncoding` is `hash_of`, `ofText?` is `try_parse`, `path`, `short` and
`beginsWith` are `to_path`, `to_short_oid` and `starts_with`.

* `ObjectId.ofText?_text`: an id is read back from its digits.
-/
import LocalVcs.Sha1

namespace LocalVcs

/-- The name of an object. -/
structure ObjectId where
  text : String
  length_eq : text.toList.length = 40
  digits : ∀ c ∈ text.toList, Sha1.IsHexDigit c
  deriving DecidableEq

namespace ObjectId

/-- Why a text is no id. -/
inductive Malformed
  | length (bytes : Nat)
  | characters (text : String)
  deriving DecidableEq

/-- The text of the complaint. -/
def Malformed.message : Malformed → String
  | length bytes => "Invalid object ID length: " ++ toString bytes
  | characters text => "Invalid object ID characters: " ++ text

/-- The order of the digits. -/
instance : Ord ObjectId := ⟨fun a b => compare a.text b.text⟩

instance : ToString ObjectId := ⟨text⟩

@[ext] theorem ext {a b : ObjectId} (h : a.text = b.text) : a = b := by
  cases a; cases b; simp_all

/-- The id of the object with this encoding. -/
def ofEncoding (encoding : Bytes) : ObjectId where
  text := String.ofList (Sha1.digest encoding).hex
  length_eq := by simp
  digits := by
    intro c hc
    rw [String.toList_ofList] at hc
    exact Sha1.isHexDigit_of_mem_hex hc

/-- ASCII letters in lower case. -/
def lowered (text : String) : String := String.ofList (text.toList.map Char.toLower)

/-- Reads an id: forty bytes, all of them hexadecimal digits of either case. -/
def ofText? (text : String) : Except Malformed ObjectId :=
  if text.utf8ByteSize ≠ 40 then .error (.length text.utf8ByteSize)
  else if h : (lowered text).toList.length = 40 ∧
      ((lowered text).toList.all fun c => decide (Sha1.IsHexDigit c)) = true then
    .ok ⟨lowered text, h.1, fun c hc => of_decide_eq_true (List.all_eq_true.mp h.2 c hc)⟩
  else .error (.characters text)

/-- The first two digits: the directory that holds the object. -/
def directory (id : ObjectId) : String := String.ofList (id.text.toList.take 2)

/-- The other 38 digits: the object's file in its directory. -/
def fileName (id : ObjectId) : String := String.ofList (id.text.toList.drop 2)

/-- Directory and file, as a path below a store. -/
def path (id : ObjectId) : String := id.directory ++ "/" ++ id.fileName

/-- The seven digits that stand for an id in a summary. -/
def short (id : ObjectId) : String := String.ofList (id.text.toList.take 7)

/-- Whether the id begins with an abbreviation, letters of either case. -/
def beginsWith (id : ObjectId) (start : String) : Bool :=
  (lowered start).toList.isPrefixOf id.text.toList

/-! ## Reading back -/

theorem toLower_of_isHexDigit {c : Char} (h : Sha1.IsHexDigit c) : c.toLower = c := by
  have all : (Sha1.hexDigitChars.all fun c => c.toLower = c) = true := by decide
  simpa using List.all_eq_true.mp all c h

theorem utf8Size_of_isHexDigit {c : Char} (h : Sha1.IsHexDigit c) : c.utf8Size = 1 := by
  have all : (Sha1.hexDigitChars.all fun c => c.utf8Size = 1) = true := by decide
  simpa using List.all_eq_true.mp all c h

@[simp] theorem lowered_text (id : ObjectId) : lowered id.text = id.text := by
  have : id.text.toList.map Char.toLower = id.text.toList :=
    (List.map_congr_left fun c hc => toLower_of_isHexDigit (id.digits c hc)).trans (List.map_id _)
  rw [lowered, this, String.ofList_toList]

theorem utf8ByteSize_ofList {cs : List Char} (h : ∀ c ∈ cs, c.utf8Size = 1) :
    (String.ofList cs).utf8ByteSize = cs.length := by
  induction cs with
  | nil => rfl
  | cons c rest ih =>
    rw [String.ofList_cons, String.utf8ByteSize_append, String.utf8ByteSize_singleton,
      h c (List.mem_cons_self ..), ih fun d hd => h d (List.mem_cons_of_mem _ hd),
      List.length_cons, Nat.add_comm]

@[simp] theorem utf8ByteSize_text (id : ObjectId) : id.text.utf8ByteSize = 40 := by
  rw [← String.ofList_toList (s := id.text),
    utf8ByteSize_ofList fun c hc => utf8Size_of_isHexDigit (id.digits c hc), id.length_eq]

theorem ofText?_text (id : ObjectId) : ofText? id.text = .ok id := by
  simp only [ofText?, utf8ByteSize_text, lowered_text, ne_eq, not_true_eq_false, if_false]
  rw [dif_pos ⟨id.length_eq, List.all_eq_true.mpr fun c hc => decide_eq_true (id.digits c hc)⟩]

end ObjectId

end LocalVcs
