import ConsoleScript.Text.Basic

/-!
# Characters of a text

A text is read character by character as UTF-8. A byte that starts no valid sequence counts as
one replacement character of its own, so reading never fails and always moves forward.
-/

namespace ConsoleScript.Text

/-- The character that stands for a byte that is not UTF-8. -/
def replacement : Char := '\uFFFD'

def isTail (b : UInt8) : Bool := 0x80 ≤ b && b ≤ 0xBF

/-- The six payload bits of a continuation byte. -/
def tailBits (b : UInt8) : Nat := b.toNat % 64

/-- The range in which the second byte of a sequence that starts with `b` has to lie. -/
def secondRange (b : UInt8) : UInt8 × UInt8 :=
  if b == 0xE0 then (0xA0, 0xBF)
  else if b == 0xED then (0x80, 0x9F)
  else if b == 0xF0 then (0x90, 0xBF)
  else if b == 0xF4 then (0x80, 0x8F)
  else (0x80, 0xBF)

/-- The character that starts with byte `b`, and how many bytes of `rest` belong to it. -/
def headChar (b : UInt8) (rest : Text) : Char × Nat :=
  if b < 0x80 then (Char.ofNat b.toNat, 0)
  else
    let (lo, hi) := secondRange b
    match rest with
    | b₁ :: more =>
      if b < 0xC2 || b > 0xF4 || b₁ < lo || b₁ > hi then (replacement, 0)
      else if b < 0xE0 then (Char.ofNat (b.toNat % 32 * 64 + tailBits b₁), 1)
      else match more with
        | b₂ :: more =>
          if !isTail b₂ then (replacement, 0)
          else if b < 0xF0 then
            (Char.ofNat ((b.toNat % 16 * 64 + tailBits b₁) * 64 + tailBits b₂), 2)
          else match more with
            | b₃ :: _ =>
              if !isTail b₃ then (replacement, 0)
              else
                (Char.ofNat (((b.toNat % 8 * 64 + tailBits b₁) * 64 + tailBits b₂) * 64
                  + tailBits b₃), 3)
            | [] => (replacement, 0)
        | [] => (replacement, 0)
    | [] => (replacement, 0)

/-- Does byte `b` fail to start a valid sequence? -/
def isBadHead (b : UInt8) (rest : Text) : Bool := b ≥ 0x80 && (headChar b rest).2 == 0

/-- The characters of a text. -/
def chars : Text → List Char
  | [] => []
  | b :: rest =>
    let (c, extra) := headChar b rest
    c :: chars (rest.drop extra)
  termination_by t => t.length
  decreasing_by simp only [List.length_drop, List.length_cons]; omega

def charCount (t : Text) : Nat := t.chars.length

def isUtf8 : Text → Bool
  | [] => true
  | b :: rest =>
    if isBadHead b rest then false else isUtf8 (rest.drop (headChar b rest).2)
  termination_by t => t.length
  decreasing_by simp only [List.length_drop, List.length_cons]; omega

def ofChar (c : Char) : Text := String.utf8EncodeChar c

/-- The UTF-8 bytes of a sequence of characters. -/
def ofChars (cs : List Char) : Text := cs.flatMap ofChar

def scrub (t : Text) : Text := ofChars t.chars

end ConsoleScript.Text
