import Rfsoc.Core.Octets

/-!
# Bit files

`fpga-bit-to-bin.py` takes the configuration data out of a bit file: it checks
the preamble and the field `a`, prints the name of the design and the fields up
to the data, and writes the data, with `-f` every 32-bit word's octets reversed.
`read` gives what is left where less than it asks for is, so that a string ends
early where the file does; only `unpack` needs its octets.

A step takes what is left of the file and gives the rest; the lines printed
before an exception stay printed.
-/

namespace Rfsoc.BitFile

open Rfsoc.Octets

/-- A line of `print`: a text and the octets or the number after it. -/
inductive Line where
  | octets (label : String) (shown : List Octet)
  | number (label : String) (shown : ℕ)

/-- The exception that ends the script; `structError` is that of `struct`, whose
argument had to have `size` octets. -/
inductive Failure where
  | structError (size : ℕ)
  | exception (text : String)

def octet (c : Char) : Octet := BitVec.ofNat 8 c.toNat

/-- `short.unpack(bitfile.read(2))`, and `ulong` with four octets. -/
def readNumber (size : ℕ) (file : List Octet) :
    Except Failure (ℕ × List Octet) :=
  if (file.take size).length = size then
    .ok (number (file.take size), file.drop size)
  else
    .error (.structError size)

/-- The `short` that is a length, and `bitfile.read` of so many octets. -/
def readField (file : List Octet) : Except Failure (List Octet × List Octet) :=
  match readNumber 2 file with
  | .error failure => .error failure
  | .ok (l, file) => .ok (file.take l, file.drop l)

/-- `sl.unpack_from` and `sb.pack_into` at every fourth offset; the last word
has to be whole. -/
def flip32 : List Octet → Except Failure (List Octet)
  | [] => .ok []
  | b0 :: b1 :: b2 :: b3 :: data =>
      match flip32 data with
      | .error failure => .error failure
      | .ok d => .ok (octets 4 (number [b3, b2, b1, b0]) ++ d)
  | _ => .error (.structError 4)

/-- `KEYNAMES` -/
def keyNames (k : Octet) : Option String :=
  if k = octet 'b' then some "Partname"
  else if k = octet 'c' then some "Date"
  else if k = octet 'd' then some "Time"
  else none

/-- The lines of a run, and the octets it writes to the output file. -/
abbrev Run := List Line × Except Failure (List Octet)

def printing (line : Line) (run : Run) : Run := (line :: run.1, run.2)

theorem length_readField {file d rest : List Octet}
    (hread : readField file = .ok (d, rest)) : rest.length ≤ file.length := by
  simp only [readField, readNumber] at hread
  split at hread
  · cases hread
  · rename_i heq
    split at heq
    · cases heq
      cases hread
      simp
    · cases heq

/-- The loop over the keys. -/
def records (flip : Bool) (file : List Octet) : Run :=
  match file with
  | [] => ([], .error (.exception "unexpected EOF"))
  | k :: file =>
      if k = octet 'e' then
        match readNumber 4 file with
        | .error failure => ([], .error failure)
        | .ok (l, file) =>
            ([.number "found binary data:" l],
              if flip then flip32 (file.take l) else .ok (file.take l))
      else
        match keyNames k with
        | some name =>
            match hfield : readField file with
            | .error failure => ([], .error failure)
            | .ok (d, rest) =>
                have := length_readField hfield
                printing (.octets name d) (records flip rest)
        | none =>
            printing (.octets "Unexpected key: " [k])
              (match hfield : readField file with
              | .error failure => ([], .error failure)
              | .ok (_, rest) =>
                  have := length_readField hfield
                  records flip rest)
  termination_by file.length

/-- `%x` -/
def hexadecimal (l : ℕ) : String := String.ofList (Nat.toDigits 16 l)

/-- The script: the preamble, the field `a`, the name of the design and the
loop. -/
def convert (flip : Bool) (file : List Octet) : Run :=
  match readNumber 2 file with
  | .error failure => ([], .error failure)
  | .ok (l, file) =>
      if l ≠ 9 then
        ([], .error (.exception ("Missing <0009> header (0x" ++ hexadecimal l ++
          "), not a bit file")))
      else
        match readField (file.drop l) with
        | .error failure => ([], .error failure)
        | .ok (d, file) =>
            if d ≠ [octet 'a'] then
              ([], .error (.exception "Missing <a> header, not a bit file"))
            else
              match readField file with
              | .error failure => ([], .error failure)
              | .ok (d, file) =>
                  printing (.octets "Design name:" d) (records flip file)

/-- A field whose length fits the two octets before it. -/
abbrev Field := { field : List Octet // field.length < 256 ^ 2 }

/-- A field before the data, under a key other than that of the data. -/
structure Record where
  key : Octet
  field : Field
  before : key ≠ octet 'e'

/-- The data with the length the file declares, and what follows it.  The data
end early only where the file does. -/
structure Data where
  declared : ℕ
  payload : List Octet
  tail : List Octet
  bounded : declared < 256 ^ 4
  stored : payload.length ≤ declared
  whole : tail = [] ∨ payload.length = declared

structure Contents where
  preamble : List Octet
  design : Field
  records : List Record
  data : Data
  nine : preamble.length = 9

def Record.encode (record : Record) : List Octet :=
  record.key :: lengthFirst 2 record.field.1

def Data.encode (data : Data) : List Octet :=
  octet 'e' :: (octets 4 data.declared ++ (data.payload ++ data.tail))

def encodeRecords (rs : List Record) : List Octet := rs.flatMap Record.encode

def Contents.encode (bit : Contents) : List Octet :=
  octets 2 9 ++ (bit.preamble ++ (lengthFirst 2 [octet 'a'] ++
    (lengthFirst 2 bit.design.1 ++ (encodeRecords bit.records ++ bit.data.encode))))

def Record.line (record : Record) : Line :=
  match keyNames record.key with
  | some name => .octets name record.field.1
  | none => .octets "Unexpected key: " [record.key]

def Data.line (data : Data) : Line := .number "found binary data:" data.declared

/-- What the script prints for a bit file. -/
def Contents.printed (bit : Contents) : List Line :=
  .octets "Design name:" bit.design.1 :: (bit.records.map Record.line ++ [bit.data.line])

/-- The octets of every four reversed. -/
def reversedWords : List Octet → List Octet
  | b0 :: b1 :: b2 :: b3 :: data => b3 :: b2 :: b1 :: b0 :: reversedWords data
  | _ => []

/-- What the script writes for a bit file: with `-f` only whole words. -/
def Data.binary (data : Data) (flip : Bool) : Except Failure (List Octet) :=
  if flip = false then .ok data.payload
  else if 4 ∣ data.payload.length then .ok (reversedWords data.payload)
  else .error (.structError 4)

theorem readNumber_octets {size value : ℕ} (hvalue : value < 256 ^ size)
    (rest : List Octet) :
    readNumber size (octets size value ++ rest) = .ok (value, rest) := by
  have htake : (octets size value ++ rest).take size = octets size value :=
    List.take_left' (length_octets size value)
  have hdrop : (octets size value ++ rest).drop size = rest :=
    List.drop_left' (length_octets size value)
  rw [readNumber, htake, hdrop, if_pos (length_octets size value),
    number_octets hvalue]

theorem readNumber_ok {size value : ℕ} {file rest : List Octet}
    (hread : readNumber size file = .ok (value, rest)) :
    value < 256 ^ size ∧ file = octets size value ++ rest := by
  unfold readNumber at hread
  split at hread
  · rename_i hlength
    cases hread
    have hlt := number_lt (file.take size)
    have hword := octets_number (file.take size)
    rw [hlength] at hlt hword
    exact ⟨hlt, by rw [hword, List.take_append_drop]⟩
  · cases hread

theorem readField_nil : readField [] = .error (.structError 2) := rfl

theorem readField_lengthFirst (field : Field) (rest : List Octet) :
    readField (lengthFirst 2 field.1 ++ rest) = .ok (field.1, rest) := by
  rw [readField, lengthFirst, List.append_assoc, readNumber_octets field.2]
  simp

/-- A field that is not at the end of the file is all there. -/
theorem readField_ok {file d rest : List Octet}
    (hread : readField file = .ok (d, rest)) (hrest : rest ≠ []) :
    d.length < 256 ^ 2 ∧ file = lengthFirst 2 d ++ rest := by
  unfold readField at hread
  split at hread
  · cases hread
  · rename_i l file hnumber
    obtain ⟨hl, hfile⟩ := readNumber_ok hnumber
    cases hread
    have hwhole : (file.take l).length = l := by
      have hlonger := List.length_pos_iff.mpr hrest
      rw [List.length_drop] at hlonger
      rw [List.length_take]
      omega
    refine ⟨by rwa [hwhole], ?_⟩
    rw [lengthFirst, hwhole, List.append_assoc, List.take_append_drop, hfile]

/-- With `-f` whole words are turned round and anything else is refused. -/
theorem flip32_eq (data : List Octet) :
    flip32 data =
      if 4 ∣ data.length then .ok (reversedWords data)
      else .error (.structError 4) := by
  fun_induction reversedWords data with
  | case1 b0 b1 b2 b3 data ih =>
      have hdvd : 4 ∣ (b0 :: b1 :: b2 :: b3 :: data).length ↔ 4 ∣ data.length := by
        simp only [List.length_cons]
        omega
      have hword := octets_number [b3, b2, b1, b0]
      simp only [List.length_cons, List.length_nil, Nat.zero_add,
        Nat.reduceAdd] at hword
      rw [flip32, ih, hword]
      by_cases hwhole : 4 ∣ data.length
      · rw [if_pos hwhole, if_pos (hdvd.mpr hwhole)]
        rfl
      · rw [if_neg hwhole, if_neg (fun h => hwhole (hdvd.mp h))]
  | case2 data hshort =>
      match data with
      | [] => rfl
      | [_] => simp [flip32]
      | [_, _] => simp [flip32]
      | [_, _, _] => simp [flip32]
      | b0 :: b1 :: b2 :: b3 :: data => exact absurd rfl (hshort b0 b1 b2 b3 data)

section Loop

variable {flip : Bool} {lines : List Line} {binary : List Octet}

theorem printing_ok {line : Line} {run : Run}
    (hrun : printing line run = (lines, .ok binary)) : run = (run.1, .ok binary) := by
  have hresult := congrArg Prod.snd hrun
  exact Prod.ext rfl hresult

theorem records_field {k : Octet} {file d rest : List Octet} (hk : k ≠ octet 'e')
    (hread : readField file = .ok (d, rest)) :
    records flip (k :: file) =
      printing
        (match keyNames k with
        | some name => .octets name d
        | none => .octets "Unexpected key: " [k])
        (records flip rest) := by
  rw [records, if_neg hk]
  cases hname : keyNames k with
  | some name =>
      dsimp only
      split
      · simp_all
      · simp_all
  | none =>
      dsimp only
      split
      · simp_all
      · simp_all

theorem records_no_field {k : Octet} {file : List Octet} {failure : Failure}
    (hk : k ≠ octet 'e') (hread : readField file = .error failure) :
    (records flip (k :: file)).2 = .error failure := by
  rw [records, if_neg hk]
  cases hname : keyNames k with
  | some name =>
      dsimp only
      split
      · simp_all
      · simp_all
  | none =>
      dsimp only [printing]
      split
      · simp_all
      · simp_all

theorem records_record (record : Record) (rest : List Octet) :
    records flip (record.encode ++ rest) =
      printing record.line (records flip rest) :=
  records_field record.before (readField_lengthFirst record.field rest)

/-- Reading the declared length gives the payload, also where the file ends. -/
theorem Data.take_declared (data : Data) :
    (data.payload ++ data.tail).take data.declared = data.payload := by
  rcases data.whole with hend | hlength
  · rw [hend, List.append_nil, List.take_of_length_le data.stored]
  · rw [← hlength, List.take_left]

theorem records_data (data : Data) :
    records flip data.encode = ([data.line], data.binary flip) := by
  rw [Data.encode, records, if_pos rfl, readNumber_octets data.bounded]
  dsimp only
  rw [data.take_declared, flip32_eq, Data.line, Data.binary]
  cases flip <;> simp

/-- Every sequence of records before the data is read back. -/
theorem records_encode (rs : List Record) (data : Data) :
    records flip (encodeRecords rs ++ data.encode) =
      (rs.map Record.line ++ [data.line], data.binary flip) := by
  induction rs with
  | nil => exact records_data data
  | cons record rs ih =>
      have hencode : encodeRecords (record :: rs) ++ data.encode =
          record.encode ++ (encodeRecords rs ++ data.encode) := by
        simp [encodeRecords]
      rw [hencode, records_record, ih]
      rfl

theorem records_nil_failed : records flip [] ≠ (lines, .ok binary) := by
  intro hrun
  rw [records] at hrun
  cases hrun

theorem data_of_records {file : List Octet}
    (hrun : records flip (octet 'e' :: file) = (lines, .ok binary)) :
    ∃ data : Data, data.encode = octet 'e' :: file := by
  rw [records, if_pos rfl] at hrun
  split at hrun
  · cases hrun
  · rename_i l file hnumber
    obtain ⟨hl, hfile⟩ := readNumber_ok hnumber
    refine ⟨⟨l, file.take l, file.drop l, hl, List.length_take_le l file, ?_⟩, ?_⟩
    · by_cases hlong : l ≤ file.length
      · exact .inr (List.length_take_of_le hlong)
      · exact .inl (List.drop_of_length_le (by omega))
    · rw [Data.encode, List.take_append_drop, hfile]

/-- What the loop accepts are records and data: a field cut off at the end of the
file leaves nothing for the next key. -/
theorem exists_of_records (file : List Octet) :
    ∀ lines, records flip file = (lines, .ok binary) →
      ∃ rs, ∃ data : Data, file = encodeRecords rs ++ data.encode := by
  induction hlength : file.length using Nat.strongRecOn generalizing file with
  | ind n ih =>
      intro lines hrun
      cases file with
      | nil => exact absurd hrun records_nil_failed
      | cons k file =>
          by_cases hk : k = octet 'e'
          · subst hk
            obtain ⟨data, hdata⟩ := data_of_records hrun
            exact ⟨[], data, hdata.symm⟩
          · cases hread : readField file with
            | error failure =>
                have hfailed : (records flip (k :: file)).2 = .error failure :=
                  records_no_field hk hread
                rw [hrun] at hfailed
                cases hfailed
            | ok field =>
                obtain ⟨d, rest⟩ := field
                rw [records_field hk hread] at hrun
                have hrest := printing_ok hrun
                have hne : rest ≠ [] := by
                  rintro rfl
                  exact records_nil_failed hrest
                obtain ⟨hd, hfile⟩ := readField_ok hread hne
                obtain ⟨rs, data, htail⟩ := ih rest.length
                  (by rw [← hlength, List.length_cons]
                      exact Nat.lt_succ_of_le (length_readField hread))
                  rest rfl _ hrest
                refine ⟨⟨k, ⟨d, hd⟩, hk⟩ :: rs, data, ?_⟩
                rw [hfile, htail]
                simp [encodeRecords, Record.encode]

end Loop

/-- A file that starts as a bit file does, with the name of its design read. -/
def opening (preamble : List Octet) (design : Field) (rest : List Octet) :
    List Octet :=
  octets 2 9 ++ (preamble ++ (lengthFirst 2 [octet 'a'] ++
    (lengthFirst 2 design.1 ++ rest)))

theorem Contents.encode_eq (bit : Contents) :
    bit.encode =
      opening bit.preamble bit.design (encodeRecords bit.records ++ bit.data.encode) :=
  rfl

theorem convert_opening {preamble : List Octet} (hnine : preamble.length = 9)
    (flip : Bool) (design : Field) (rest : List Octet) :
    convert flip (opening preamble design rest) =
      printing (.octets "Design name:" design.1) (records flip rest) := by
  have hdrop : (preamble ++ (lengthFirst 2 [octet 'a'] ++
      (lengthFirst 2 design.1 ++ rest))).drop 9 =
        lengthFirst 2 [octet 'a'] ++ (lengthFirst 2 design.1 ++ rest) :=
    List.drop_left' hnine
  have hmark := readField_lengthFirst ⟨[octet 'a'], by decide⟩
    (lengthFirst 2 design.1 ++ rest)
  rw [convert, opening, readNumber_octets (by decide)]
  dsimp only
  rw [if_neg (fun h => h rfl), hdrop, hmark]
  dsimp only
  rw [if_neg (fun h => h rfl), readField_lengthFirst]

theorem convert_encode (flip : Bool) (bit : Contents) :
    convert flip bit.encode = (bit.printed, bit.data.binary flip) := by
  rw [Contents.encode_eq, convert_opening bit.nine, records_encode]
  rfl

/-- What the script accepts starts as a bit file does. -/
theorem opening_of_convert {flip : Bool} {file binary : List Octet}
    {lines : List Line} (hrun : convert flip file = (lines, .ok binary)) :
    ∃ preamble, ∃ design : Field, ∃ rest, preamble.length = 9 ∧
      file = opening preamble design rest ∧
      records flip rest = ((records flip rest).1, .ok binary) := by
  unfold convert at hrun
  split at hrun
  · cases hrun
  rename_i l rest hnine
  obtain ⟨-, hfile⟩ := readNumber_ok hnine
  split at hrun
  · cases hrun
  rename_i hl
  split at hrun
  · cases hrun
  rename_i mark named hmark
  split at hrun
  · cases hrun
  rename_i hd
  split at hrun
  · cases hrun
  rename_i design body hdesign
  have hbody := printing_ok hrun
  -- Each part is whole since something is read after it.
  have hbodyNe : body ≠ [] := by
    rintro rfl
    exact records_nil_failed hbody
  have hnamedNe : named ≠ [] := by
    rintro rfl
    rw [readField_nil] at hdesign
    cases hdesign
  have hmarkedNe : rest.drop l ≠ [] := by
    intro hempty
    rw [hempty, readField_nil] at hmark
    cases hmark
  obtain ⟨hbound, hnamed⟩ := readField_ok hdesign hbodyNe
  obtain ⟨-, hmarked⟩ := readField_ok hmark hnamedNe
  rw [not_not] at hl hd
  subst hl hd
  have hlength : (rest.take 9).length = 9 := by
    have hlonger := List.length_pos_iff.mpr hmarkedNe
    rw [List.length_drop] at hlonger
    rw [List.length_take]
    omega
  refine ⟨rest.take 9, ⟨design, hbound⟩, body, hlength, ?_, hbody⟩
  rw [opening, ← hnamed, ← hmarked, List.take_append_drop, hfile]

theorem Data.encode_injective : Function.Injective Data.encode := by
  intro left right heq
  have hrest : octets 4 left.declared ++ (left.payload ++ left.tail) =
      octets 4 right.declared ++ (right.payload ++ right.tail) :=
    (List.cons.inj heq).2
  obtain ⟨hdeclared, hbytes⟩ := octets_append_inj left.bounded right.bounded hrest
  have hleft := left.take_declared
  rw [hbytes, hdeclared, right.take_declared] at hleft
  rw [hleft] at hbytes
  have htail := List.append_cancel_left hbytes
  cases left
  cases right
  simp_all

/-- Where the records end is seen from the key of the data. -/
theorem encodeRecords_append_inj {left right : List Record} {dataL dataR : Data}
    (heq : encodeRecords left ++ dataL.encode = encodeRecords right ++ dataR.encode) :
    left = right ∧ dataL = dataR := by
  induction left generalizing right with
  | nil =>
      cases right with
      | nil => exact ⟨rfl, Data.encode_injective heq⟩
      | cons record right =>
          have hkey : octet 'e' = record.key := (List.cons.inj heq).1
          exact absurd hkey.symm record.before
  | cons record left ih =>
      cases right with
      | nil =>
          have hkey : record.key = octet 'e' := (List.cons.inj heq).1
          exact absurd hkey record.before
      | cons other right =>
          simp only [encodeRecords, List.flatMap_cons, Record.encode,
            List.cons_append, List.append_assoc] at heq
          obtain ⟨hkey, hfield⟩ := List.cons.inj heq
          obtain ⟨hvalue, hrest⟩ :=
            lengthFirst_append_inj record.field.2 other.field.2 hfield
          obtain ⟨hrecords, hdata⟩ := ih hrest
          refine ⟨?_, hdata⟩
          rw [hrecords]
          congr 1
          cases record
          cases other
          simp_all [Subtype.ext_iff]

theorem Contents.encode_injective : Function.Injective Contents.encode := by
  intro left right heq
  rw [Contents.encode_eq, Contents.encode_eq, opening, opening] at heq
  obtain ⟨hpreamble, hrest⟩ := List.append_inj (List.append_cancel_left heq)
    (left.nine.trans right.nine.symm)
  obtain ⟨hdesign, hbody⟩ := lengthFirst_append_inj left.design.2 right.design.2
    (List.append_cancel_left hrest)
  obtain ⟨hrecords, hdata⟩ := encodeRecords_append_inj hbody
  cases left
  cases right
  simp_all [Subtype.ext_iff]

/-- The script ends without an exception exactly on the bit files, each of which
reads in one way, and then it has printed the design's name, a line for every
record and the declared length, and written the data.  A file cut off inside the
data is one of them. -/
theorem convert_ok_iff (flip : Bool) (file : List Octet) (lines : List Line)
    (binary : List Octet) :
    convert flip file = (lines, .ok binary) ↔
      ∃! bit : Contents, bit.encode = file ∧ bit.printed = lines ∧
        bit.data.binary flip = .ok binary := by
  constructor
  · intro hrun
    obtain ⟨preamble, design, rest, hnine, hfile, hrest⟩ := opening_of_convert hrun
    obtain ⟨rs, data, hbody⟩ := exists_of_records rest _ hrest
    let bit : Contents := ⟨preamble, design, rs, data, hnine⟩
    have hencode : bit.encode = file := by
      rw [Contents.encode_eq, hfile, hbody]
    rw [← hencode, convert_encode] at hrun
    obtain ⟨hlines, hbinary⟩ := Prod.mk.inj hrun
    refine ⟨bit, ⟨hencode, hlines, hbinary⟩, ?_⟩
    intro other hother
    exact Contents.encode_injective (hother.1.trans hencode.symm)
  · rintro ⟨bit, ⟨rfl, rfl, hbinary⟩, -⟩
    rw [convert_encode, hbinary]

end Rfsoc.BitFile
