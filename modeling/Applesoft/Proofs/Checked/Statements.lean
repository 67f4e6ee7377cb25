import Applesoft.Fragment
import Applesoft.Proofs.Checked.Access
import Applesoft.Proofs.Spacing

namespace Applesoft.Checked

section Rendering

variable (options : Options)

/-- The word shown for a token, whose keyword is looked up by its distance from the first token. -/
def word? (token : UInt8) : Option Text :=
  (difference? token.toNat 128).map fun index =>
    match Keyword.spellings[index]? with
    | some spelling =>
        if token = Keyword.thenToken && !options.showThen then [] else spelling.toList
    | none => '\\' :: 'x' :: Numeral.hexLower 2 token.toNat

/-- The caret form of a control character. -/
def caret? (byte : UInt8) : Option Text :=
  (sum? (2 ^ 8) byte.toNat 64).map fun shown => ['^', Char.ofNat shown]

def piece? (settled : Bool) (byte : UInt8) : Option Text :=
  if Keyword.isToken byte then
    (word? options byte).map fun shown => (if settled then [] else [' ']) ++ shown
  else if isControl byte then
    if options.showCaret then caret? byte else some []
  else
    some [toCharacter byte]

def renderFrom? : Bool → Bytes → Option Text
  | _, [] => some []
  | settled, byte :: rest => do
      let shown ← piece? options settled byte
      let behind ← renderFrom? (Rendering.settledAfter settled shown) rest
      some (shown ++ behind)

def render? (bytes : Bytes) : Option Text :=
  renderFrom? options true bytes

theorem word?_eq {token : UInt8} (isToken : Keyword.isToken token = true) :
    word? options token = some (Rendering.word options token) := by
  have above : 128 ≤ token.toNat := by
    simpa [Keyword.isToken, UInt8.lt_iff_toNat_lt, Nat.lt_iff_add_one_le] using isToken
  rw [word?, difference?_eq above, Option.map_some, Rendering.word, Keyword.spelling?,
    if_pos isToken]
  by_cases isThen : token = Keyword.thenToken
  · have keyword : Keyword.spellings[Keyword.thenToken.toNat - 128]? = some "THEN " := by decide
    subst isThen
    rw [keyword]
    cases options.showThen <;> simp
  · cases Keyword.spellings[token.toNat - 128]? <;> simp [isThen]

theorem caret?_eq {byte : UInt8} (control : isControl byte = true) :
    caret? byte = some ['^', toCharacter (byte + 64)] := by
  have below : byte.toNat < 32 := by
    simpa [isControl, UInt8.lt_iff_toNat_lt] using control
  have shown : (byte + 64).toNat = byte.toNat + 64 := by
    rw [UInt8.toNat_add]
    exact Nat.mod_eq_of_lt (by change byte.toNat + 64 < 256; omega)
  rw [caret?, sum?_eq (by omega), Option.map_some, toCharacter, shown]

theorem piece?_eq (settled : Bool) (byte : UInt8) :
    piece? options settled byte = some (Rendering.piece options settled byte) := by
  rw [piece?, Rendering.piece]
  split
  · next isToken => rw [word?_eq options isToken, Option.map_some]
  · split
    · next control =>
        split
        · exact caret?_eq control
        · rfl
    · rfl

theorem renderFrom?_eq (settled : Bool) (bytes : Bytes) :
    renderFrom? options settled bytes = some (Rendering.renderFrom options settled bytes) := by
  induction bytes generalizing settled with
  | nil => rfl
  | cons byte rest hypothesis => simp [renderFrom?, Rendering.renderFrom, piece?_eq, hypothesis]

theorem render?_eq (bytes : Bytes) :
    render? options bytes = some (Rendering.render options bytes) :=
  renderFrom?_eq options true bytes

end Rendering

/-- Reads an ON, whose bytes are taken again behind its token. -/
def ofOn? (body : Bytes) : Option Statement := do
  let arguments ← slice? body 1 body.length
  let found := arguments.findIdx? Statement.isDispatchToken
  let expression ← slice? arguments 0 (found.getD arguments.length)
  let text ← render? {} expression
  match found with
  | none => some (.on (Text.trim text) none)
  | some index =>
      let token ← arguments[index]?
      let list ← slice? arguments (index + 1) arguments.length
      some (.on (Text.trim text) (some {
        kind := if token = Keyword.gosubToken then .gosub else .goto
        entries := (Text.fields ',' (Utf8.decode list)).map TargetEntry.read }))

/-- Reads a statement that begins with a token. -/
def ofKeyword? (body : Bytes) : Option Statement := do
  let arguments ← slice? body 1 body.length
  let token ← body[0]?
  if token = Keyword.onToken then ofOn? body else some (Statement.ofKeyword token arguments)

def ofBody? (body : Bytes) : Option Statement :=
  match body.head? with
  | some first =>
      if Keyword.isToken first then ofKeyword? body else some (Statement.ofBody body)
  | none => some (Statement.ofBody body)

theorem takeWhile_not_dispatch (arguments : Bytes) :
    (arguments.takeWhile fun byte => !Statement.isDispatchToken byte) =
      arguments.take (arguments.findIdx Statement.isDispatchToken) := by
  simp [List.takeWhile_eq_take_findIdx_not]

theorem dropWhile_not_dispatch (arguments : Bytes) :
    (arguments.dropWhile fun byte => !Statement.isDispatchToken byte) =
      arguments.drop (arguments.findIdx Statement.isDispatchToken) := by
  simp [List.dropWhile_eq_drop_findIdx_not]

theorem ofOn?_eq (token : UInt8) (arguments : Bytes) :
    ofOn? (token :: arguments) = some (Statement.ofOn arguments) := by
  have behind : slice? (token :: arguments) 1 (token :: arguments).length = some arguments :=
    slice?_length (by simp)
  simp only [ofOn?, behind, Statement.ofOn, takeWhile_not_dispatch, dropWhile_not_dispatch,
    Option.bind_eq_bind, Option.bind_some]
  cases found : arguments.findIdx? Statement.isDispatchToken with
  | none =>
      have stop := List.findIdx?_eq_none_iff_findIdx_eq.1 found
      rw [stop, Option.getD_none, slice?_zero le_rfl]
      simp [render?_eq]
  | some index =>
      obtain ⟨inside, stop⟩ := List.findIdx?_eq_some_iff_findIdx_eq.1 found
      have list : slice? arguments (index + 1) arguments.length =
          some (arguments.drop (index + 1)) := slice?_length inside
      rw [stop, Option.getD_some, slice?_zero inside.le, List.drop_eq_getElem_cons inside]
      simp [render?_eq, List.getElem?_eq_getElem inside, list]

theorem ofKeyword?_eq (token : UInt8) (arguments : Bytes) :
    ofKeyword? (token :: arguments) = some (Statement.ofKeyword token arguments) := by
  have behind : slice? (token :: arguments) 1 (token :: arguments).length = some arguments :=
    slice?_length (by simp)
  simp only [ofKeyword?, behind, Option.bind_eq_bind, Option.bind_some, List.getElem?_cons_zero]
  split
  · next isOn =>
      subst isOn
      rw [ofOn?_eq]
      rfl
  · rfl

theorem ofBody?_eq (body : Bytes) : ofBody? body = some (Statement.ofBody body) := by
  rw [ofBody?]
  cases body with
  | nil => rfl
  | cons token arguments =>
      rw [List.head?_cons]
      dsimp only
      split
      · next isToken => rw [ofKeyword?_eq, Statement.ofBody, if_pos isToken]
      · rfl

/-- The text of a fragment. -/
def text? (options : Options) (fragment : Fragment) : Option Text :=
  (render? options fragment.body).map fun rendered =>
    let shown := fragment.impliedKeyword options ++ rendered
    match fragment.statement with
    | .remark => shown
    | .data => shown
    | _ => Text.trimEnd shown

/-- Where the equals sign of an assignment stands in its text under the default options, in bytes;
zero if it has none. -/
def assignPosition? (fragment : Fragment) : Option Nat :=
  if fragment.statement = .assignment ∧ fragment.has Keyword.equalsToken = true then
    (text? {} fragment).map fun text => (offset? '=' text).getD 0
  else
    some 0

/-- Where the equals sign of an assignment stands in its text, in bytes; zero if it has none. -/
def equalsOffset? (options : Options) (fragment : Fragment) : Option Nat := do
  if (← assignPosition? fragment) = 0 then
    some 0
  else
    let text ← text? options fragment
    some ((offset? '=' text).getD 0)

theorem isAscii_text (options : Options) (fragment : Fragment) : IsAscii (fragment.text options) :=
  isAscii_iff.2 fun character member => (fragment.isPlain_text options character member).2

theorem text?_eq (options : Options) (fragment : Fragment) :
    text? options fragment = some (fragment.text options) := by
  rw [text?, render?_eq, Option.map_some]
  rfl

theorem equalsOffset?_eq (options : Options) (fragment : Fragment) :
    equalsOffset? options fragment = some (fragment.equalsColumn options) := by
  have position : assignPosition? fragment = some fragment.assignPosition := by
    rw [assignPosition?, Fragment.assignPosition, text?_eq, Option.map_some,
      (isAscii_text {} fragment).offset?_eq]
    split <;> rfl
  simp only [equalsOffset?, position, text?_eq, Fragment.equalsColumn, Option.bind_eq_bind,
    Option.bind_some, (isAscii_text options fragment).offset?_eq]
  split <;> rfl

end Applesoft.Checked
