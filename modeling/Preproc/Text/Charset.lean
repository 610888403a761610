/-!
# Character sets

Decoding the bytes of a file. Bytes that stand for no character are read as the replacement
character U+FFFD.
-/

namespace Preproc

/-- The encodings in which a source file can be read. -/
inductive Charset where
  | utf8
  /-- UTF-8 whose leading byte order mark is dropped. -/
  | utf8Marked
  /-- UTF-16 in the byte order that its leading mark gives. -/
  | utf16
  | latin1
  | ascii
  | windows1252
deriving DecidableEq, Repr

namespace Charset

/-- A name in the form in which names are compared: lower case, and every run of characters other
than letters, digits and points that stands between two of those as one underscore. -/
def normalName (name : String) : String :=
  let step := fun (acc : List Char × Bool) (c : Char) =>
    if c.isAlphanum || c = '.' then
      if acc.2 && !acc.1.isEmpty then (c.toLower :: '_' :: acc.1, false)
      else (c.toLower :: acc.1, false)
    else (acc.1, true)
  String.ofList (name.toList.foldl step ([], false)).1.reverse

/-- The names under which each character set is known, in normal form. -/
def names : List (Charset × List String) :=
  [(utf8, ["utf_8", "utf8", "u8", "utf", "utf8_ucs2", "utf8_ucs4", "cp65001"]),
   (utf8Marked, ["utf_8_sig"]),
   (utf16, ["utf_16", "utf16", "u16"]),
   (latin1, ["latin_1", "latin1", "latin", "l1", "iso_8859_1", "iso8859_1", "iso8859", "8859",
     "iso_8859_1_1987", "iso_ir_100", "cp819", "ibm819", "csisolatin1"]),
   (ascii, ["ascii", "us_ascii", "us", "646", "iso646_us", "iso_646.irv_1991", "iso_ir_6",
     "ansi_x3.4_1968", "ansi_x3_4_1968", "ansi_x3.4_1986", "cp367", "ibm367", "csascii"]),
   (windows1252, ["cp1252", "1252", "windows_1252"])]

/-- The character set that goes by `name`. -/
def ofName? (name : String) : Option Charset :=
  (names.find? fun entry => entry.2.contains (normalName name)).map (·.1)

/-- What stands in the place of bytes that cannot be decoded. -/
def replacement : Char := Char.ofNat 0xFFFD

/-- Decodes bytes one character at a time: `read b bs` gives the character that starts with `b`, and
how many of the bytes `bs` after it belong to it. -/
def decodeWith (read : UInt8 → List UInt8 → Char × Nat) (bytes : List UInt8) : List Char :=
  go bytes []
where
  go (bytes : List UInt8) (acc : List Char) : List Char :=
    match bytes with
    | [] => acc.reverse
    | b :: bs => go (bs.drop (read b bs).2) ((read b bs).1 :: acc)
  termination_by bytes.length
  decreasing_by simp only [List.length_cons, List.length_drop]; omega

/-- Whether `b` continues a UTF-8 sequence. -/
def isContinuation (b : UInt8) : Bool :=
  0x80 ≤ b && b ≤ 0xBF

/-- The values allowed for the second byte of a sequence that starts with `lead`. -/
def secondByte (lead : UInt8) : UInt8 × UInt8 :=
  if lead = 0xE0 then (0xA0, 0xBF)
  else if lead = 0xED then (0x80, 0x9F)
  else if lead = 0xF0 then (0x90, 0xBF)
  else if lead = 0xF4 then (0x80, 0x8F)
  else (0x80, 0xBF)

/-- How many bytes follow `lead` in its sequence, when it can start one. -/
def followers? (lead : UInt8) : Option Nat :=
  if lead < 0x80 then some 0
  else if 0xC2 ≤ lead && lead ≤ 0xDF then some 1
  else if 0xE0 ≤ lead && lead ≤ 0xEF then some 2
  else if 0xF0 ≤ lead && lead ≤ 0xF4 then some 3
  else none

/-- The number of bytes after `lead` that belong to a well-formed sequence, as far as it goes. -/
def wellFormed (lead : UInt8) (count : Nat) (bs : List UInt8) : Nat :=
  match bs.take count with
  | [] => 0
  | second :: more =>
    if (secondByte lead).1 ≤ second && second ≤ (secondByte lead).2 then
      1 + (more.takeWhile isContinuation).length
    else 0

/-- The code point that a complete sequence stands for. -/
def codePoint (lead : UInt8) (count : Nat) (bs : List UInt8) : Nat :=
  (bs.take count).foldl (fun n b => n * 64 + (b.toNat - 0x80)) (lead.toNat % (64 >>> count))

/-- Reads one character of UTF-8. An ill-formed sequence is read as one replacement character up to
the byte that cannot continue it. -/
def readUtf8 (lead : UInt8) (bs : List UInt8) : Char × Nat :=
  match followers? lead with
  | none => (replacement, 0)
  | some 0 => (Char.ofNat lead.toNat, 0)
  | some count =>
    let found := wellFormed lead count bs
    if found = count then (Char.ofNat (codePoint lead count bs), count)
    else (replacement, found)

/-- The order of the two bytes of a UTF-16 unit. -/
inductive ByteOrder where
  | littleEndian
  | bigEndian
deriving DecidableEq, Repr

/-- The unit made of two bytes. -/
def ByteOrder.unit : ByteOrder → UInt8 → UInt8 → Nat
  | littleEndian, a, b => b.toNat * 256 + a.toNat
  | bigEndian, a, b => a.toNat * 256 + b.toNat

/-- Reads one character of UTF-16. A unit that stands alone, or half of one at the end, is read as
one replacement character. -/
def readUtf16 (order : ByteOrder) (a : UInt8) (bs : List UInt8) : Char × Nat :=
  match bs with
  | [] => (replacement, 0)
  | b :: rest =>
    let high := order.unit a b
    if 0xD800 ≤ high && high ≤ 0xDBFF then
      match rest with
      | c :: d :: _ =>
        let low := order.unit c d
        if 0xDC00 ≤ low && low ≤ 0xDFFF then
          (Char.ofNat (0x10000 + (high - 0xD800) * 0x400 + (low - 0xDC00)), 3)
        else (replacement, 1)
      | short => (replacement, 1 + short.length)
    else if 0xDC00 ≤ high && high ≤ 0xDFFF then (replacement, 1)
    else (Char.ofNat high, 1)

/-- The characters of Windows-1252 from 0x80 to 0x9F; a zero marks a byte without a character. -/
def windows1252Middle : List Nat :=
  [0x20AC, 0, 0x201A, 0x192, 0x201E, 0x2026, 0x2020, 0x2021, 0x2C6, 0x2030, 0x160, 0x2039, 0x152, 0,
   0x17D, 0, 0, 0x2018, 0x2019, 0x201C, 0x201D, 0x2022, 0x2013, 0x2014, 0x2DC, 0x2122, 0x161,
   0x203A, 0x153, 0, 0x17E, 0x178]

/-- Reads one character of Windows-1252. -/
def readWindows1252 (b : UInt8) : Char :=
  if 0x80 ≤ b && b ≤ 0x9F then
    match windows1252Middle.getD (b.toNat - 0x80) 0 with
    | 0 => replacement
    | code => Char.ofNat code
  else Char.ofNat b.toNat

/-- Decodes UTF-8 and drops a leading byte order mark, even one that the end cuts short. -/
def decodeUtf8Marked (bytes : List UInt8) : List Char :=
  match bytes with
  | [] | [0xEF] | [0xEF, 0xBB] => []
  | 0xEF :: 0xBB :: 0xBF :: rest => decodeWith readUtf8 rest
  | _ => decodeWith readUtf8 bytes

/-- Decodes UTF-16 in the order that the leading mark gives; `none` if two bytes or more start with
no mark. -/
def decodeUtf16? (bytes : List UInt8) : Option (List Char) :=
  match bytes with
  | 0xFF :: 0xFE :: rest => some (decodeWith (readUtf16 .littleEndian) rest)
  | 0xFE :: 0xFF :: rest => some (decodeWith (readUtf16 .bigEndian) rest)
  | _ :: _ :: _ => none
  | short => some (short.map fun _ => replacement)

/-- The text that the bytes stand for; `none` only for UTF-16 without a byte order mark. -/
def decode? : Charset → List UInt8 → Option (List Char)
  | utf8, bytes => some (decodeWith readUtf8 bytes)
  | utf8Marked, bytes => some (decodeUtf8Marked bytes)
  | utf16, bytes => decodeUtf16? bytes
  | latin1, bytes => some (bytes.map fun b => Char.ofNat b.toNat)
  | ascii, bytes => some (bytes.map fun b => if b < 0x80 then Char.ofNat b.toNat else replacement)
  | windows1252, bytes => some (bytes.map readWindows1252)

end Charset

end Preproc
