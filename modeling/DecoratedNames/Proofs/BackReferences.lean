import DecoratedNames.Proofs.NativeSignature
import Mathlib.Data.List.Perm.Subperm

/-! Parameter lists with back references. The toolchain writes a code of several characters once,
and after that as its place among the codes of this kind. A decorated name here has every code in
full, so its parameters are those of the toolchain as long as no such code comes twice. -/

namespace DecoratedNames

namespace BackReference

/-- How many codes are remembered, so that one digit is enough for each. -/
def capacity : Nat := 10

def isLong (code : String) : Bool :=
  1 < code.length

def remember (table : List String) (code : String) : List String :=
  if table.length < capacity then table ++ [code] else table

/-- The codes as the toolchain writes them, given those that it remembers. -/
def abbreviate (table : List String) : List String → List String
  | [] => []
  | code :: codes =>
      if isLong code then
        match table.idxOf? code with
        | some position => toString position :: abbreviate table codes
        | none => code :: abbreviate (remember table code) codes
      else code :: abbreviate table codes

def parameterText (codes : List String) : String :=
  String.join (abbreviate [] codes) ++ "@"

example : parameterText ["_J", "H", "H", "PEAH", "_J", "PEAH"] = "_JHHPEAH01@" := by decide

def Distinct (table codes : List String) : Prop :=
  (table ++ codes.filter isLong).Nodup

variable {alphabet table codes : List String} {code : String}

theorem abbreviate_of_short (hshort : isLong code = false) :
    abbreviate table (code :: codes) = code :: abbreviate table codes := by
  rw [abbreviate, hshort]
  rfl

theorem abbreviate_of_known {position : Nat} (hlong : isLong code = true)
    (hknown : table.idxOf? code = some position) :
    abbreviate table (code :: codes) = toString position :: abbreviate table codes := by
  rw [abbreviate, if_pos hlong, hknown]

theorem abbreviate_of_new (hlong : isLong code = true) (hnew : table.idxOf? code = none) :
    abbreviate table (code :: codes) = code :: abbreviate (remember table code) codes := by
  rw [abbreviate, if_pos hlong, hnew]

theorem distinct_of_short (hshort : isLong code = false) :
    Distinct table (code :: codes) ↔ Distinct table codes := by
  simp [Distinct, hshort]

theorem distinct_of_new (hlong : isLong code = true) :
    Distinct table (code :: codes) ↔ Distinct (table ++ [code]) codes := by
  simp [Distinct, hlong]

theorem not_distinct_of_known (hlong : isLong code = true) (hmem : code ∈ table) :
    ¬ Distinct table (code :: codes) := by
  intro hdistinct
  rw [Distinct, List.filter_cons_of_pos hlong, List.nodup_append] at hdistinct
  exact hdistinct.2.2 code hmem code List.mem_cons_self rfl

theorem remember_length (hsize : table.length ≤ capacity) (code : String) :
    (remember table code).length ≤ capacity := by
  unfold remember
  split
  · rw [List.length_append, List.length_singleton]
    omega
  · exact hsize

theorem reference_shorter {position : Nat} (hsize : table.length ≤ capacity)
    (hlong : isLong code = true) (hknown : table.idxOf? code = some position) :
    (toString position).length < code.length := by
  obtain ⟨hposition, -⟩ := List.idxOf?_eq_some_iff.mp hknown
  have hdigit : ∀ i < capacity, (toString i).length = 1 := by decide
  rw [hdigit position (by omega)]
  simpa [isLong] using hlong

theorem length_abbreviate_le (hsize : table.length ≤ capacity) (codes : List String) :
    (String.join (abbreviate table codes)).length ≤ (String.join codes).length := by
  induction codes generalizing table with
  | nil => exact Nat.le_refl _
  | cons code codes ih =>
      cases hlong : isLong code with
      | false =>
          have hrest := ih hsize
          simp only [abbreviate_of_short hlong, String.join_cons, String.length_append]
          omega
      | true =>
          cases hknown : table.idxOf? code with
          | some position =>
              have hshorter := reference_shorter hsize hlong hknown
              have hrest := ih hsize
              simp only [abbreviate_of_known hlong hknown, String.join_cons, String.length_append]
              omega
          | none =>
              have hrest := ih (remember_length hsize code)
              simp only [abbreviate_of_new hlong hknown, String.join_cons, String.length_append]
              omega

structure Fits (alphabet table : List String) : Prop where
  nodup : table.Nodup
  subset : table ⊆ alphabet

theorem Fits.length_le (h : Fits alphabet table) : table.length ≤ alphabet.length :=
  (h.nodup.subperm h.subset).length_le

theorem Fits.snoc (h : Fits alphabet table) (hmem : code ∈ alphabet) (hnew : code ∉ table) :
    Fits alphabet (table ++ [code]) := by
  constructor
  · rw [List.nodup_append]
    refine ⟨h.nodup, by simp, ?_⟩
    intro old hold last hlast hsame
    apply hnew
    rwa [← List.mem_singleton.mp hlast, ← hsame]
  · intro other hother
    rcases List.mem_append.mp hother with hold | hlast
    · exact h.subset hold
    · rwa [List.mem_singleton.mp hlast]

theorem remember_eq (hsize : alphabet.length ≤ capacity) (h : Fits alphabet (table ++ [code])) :
    remember table code = table ++ [code] := by
  have hlength := h.length_le
  rw [List.length_append, List.length_singleton] at hlength
  rw [remember, if_pos (by omega)]

/-- Over a small alphabet the text stays as it is exactly if no long code is repeated. A repeated
one makes it shorter, and nothing behind it can make up for that. -/
theorem join_abbreviate_eq_iff (hsize : alphabet.length ≤ capacity) (hfits : Fits alphabet table)
    (hcodes : ∀ code ∈ codes, isLong code = true → code ∈ alphabet) :
    String.join (abbreviate table codes) = String.join codes ↔ Distinct table codes := by
  induction codes generalizing table with
  | nil => simp [abbreviate, Distinct, hfits.nodup]
  | cons code codes ih =>
      have hrest : ∀ other ∈ codes, isLong other = true → other ∈ alphabet :=
        fun other hother => hcodes other (List.mem_cons_of_mem _ hother)
      cases hlong : isLong code with
      | false =>
          rw [abbreviate_of_short hlong, distinct_of_short hlong, String.join_cons,
            String.join_cons, String.append_right_inj]
          exact ih hfits hrest
      | true =>
          cases hknown : table.idxOf? code with
          | some position =>
              obtain ⟨hposition, hcode, -⟩ := List.idxOf?_eq_some_iff.mp hknown
              have hmem : code ∈ table := hcode ▸ List.getElem_mem hposition
              have htable : table.length ≤ capacity := Nat.le_trans hfits.length_le hsize
              refine iff_of_false ?_ (not_distinct_of_known hlong hmem)
              -- The digit is shorter than the code, and nothing behind it gets longer.
              intro hsame
              have hlengths := congrArg String.length hsame
              have hshorter := reference_shorter htable hlong hknown
              have hrestLength := length_abbreviate_le htable codes
              simp only [abbreviate_of_known hlong hknown, String.join_cons, String.length_append]
                at hlengths
              omega
          | none =>
              have hnew : code ∉ table := List.idxOf?_eq_none_iff.mp hknown
              have hsnoc := hfits.snoc (hcodes code List.mem_cons_self hlong) hnew
              rw [abbreviate_of_new hlong hknown, distinct_of_new hlong, String.join_cons,
                String.join_cons, String.append_right_inj, remember_eq hsize hsnoc]
              exact ih hsnoc hrest

end BackReference

namespace NativeType

open DecoratedNames.BackReference

def longCodes (charSet : CharSet) : List String :=
  (all.map fun native => native.code charSet).filter isLong

theorem longCodes_length_le (charSet : CharSet) : (longCodes charSet).length ≤ capacity := by
  cases charSet <;> decide

theorem join_codes_eq_iff (charSet : CharSet) (natives : List NativeType) :
    String.join (abbreviate [] (natives.map fun native => native.code charSet)) =
        String.join (natives.map fun native => native.code charSet) ↔
      Distinct [] (natives.map fun native => native.code charSet) := by
  apply join_abbreviate_eq_iff (longCodes_length_le charSet)
  · exact ⟨List.nodup_nil, List.nil_subset _⟩
  · intro code hcode hlong
    obtain ⟨native, -, rfl⟩ := List.mem_map.mp hcode
    exact List.mem_filter.mpr ⟨native.code_mem_all charSet, hlong⟩

end NativeType

namespace Method

open DecoratedNames.BackReference

/-- Between the code of the return type and the last letter, the name has the parameters as the
toolchain writes them. -/
def HasToolchainParameters (method : Method) (charSet : CharSet) (name : DecoratedName) : Prop :=
  ∃ (returnCode : String) (codes : List String),
    (method.returnType.typeCode charSet).result = .ok returnCode ∧
    (method.encodedParameters.map fun type => (type.typeCode charSet).result) =
      codes.map Except.ok ∧
    name.text = "?" ++ method.qualifiedName ++ "@@" ++ method.accessCode ++ "A" ++ returnCode ++
      BackReference.parameterText codes ++ "Z"

variable {method : Method} {charSet : CharSet} {name : DecoratedName}

theorem hasToolchainParameters_iff {returnCode parameters : String} {codes : List String}
    (hreturn : (method.returnType.typeCode charSet).result = .ok returnCode)
    (hcodes : (method.encodedParameters.map fun type => (type.typeCode charSet).result) =
      codes.map Except.ok)
    (htext : name.text = "?" ++ method.qualifiedName ++ "@@" ++ method.accessCode ++ "A" ++
      returnCode ++ parameters ++ "Z") :
    method.HasToolchainParameters charSet name ↔
      BackReference.parameterText codes = parameters := by
  constructor
  · intro h
    obtain ⟨returnCode', codes', hreturn', hcodes', htext'⟩ := h
    obtain rfl : returnCode = returnCode' := Except.ok.inj (hreturn.symm.trans hreturn')
    obtain rfl : codes = codes' :=
      (List.map_inj_right fun _ _ hok => Except.ok.inj hok).mp (hcodes.symm.trans hcodes')
    rw [htext, String.append_left_inj, String.append_right_inj] at htext'
    exact htext'.symm
  · rintro rfl
    exact ⟨returnCode, codes, hreturn, hcodes, htext⟩

/-- Each parameter of a decorated name has its code in full. These are the parameters as the
toolchain writes them exactly if no code of several characters comes twice. -/
theorem parameters_match_toolchain_iff (hname : method.decoratedName charSet = .ok name)
    (hparameters : method.encodedParameters ≠ []) :
    ∃ (returnCode : String) (codes : List String),
      (method.returnType.typeCode charSet).result = .ok returnCode ∧
      (method.encodedParameters.map fun type => (type.typeCode charSet).result) =
        codes.map Except.ok ∧
      name.text = "?" ++ method.qualifiedName ++ "@@" ++ method.accessCode ++ "A" ++ returnCode ++
        (String.join codes ++ "@") ++ "Z" ∧
      (method.HasToolchainParameters charSet name ↔
        (codes.filter fun code => 1 < code.length).Nodup) := by
  rcases decoratedName_eq_ok_iff.mp hname with ⟨⟨returnType, parameters⟩, hsignature, rfl⟩
  have htypes := HostType.nativeTypes_eq_ok_iff.mp (nativeSignature_eq_ok_iff.mp hsignature)
  obtain ⟨hreturnType, hparameterTypes⟩ := List.cons.inj htypes
  have hreturn : (method.returnType.typeCode charSet).result = .ok (returnType.code charSet) :=
    HostType.typeCode_of_hostType? hreturnType
  have hcodes : (method.encodedParameters.map fun type => (type.typeCode charSet).result) =
      (parameters.map fun native => native.code charSet).map Except.ok :=
    HostType.map_typeCode_of_hostType? hparameterTypes
  have htext : method.nameText charSet ⟨returnType, parameters⟩ =
      "?" ++ method.qualifiedName ++ "@@" ++ method.accessCode ++ "A" ++ returnType.code charSet ++
        (String.join (parameters.map fun native => native.code charSet) ++ "@") ++ "Z" := by
    have hfull : NativeType.parameterText charSet parameters =
        String.join (parameters.map fun native => native.code charSet) ++ "@" := by
      rw [HostType.parameterText_of_hostType? hparameterTypes, if_neg hparameters]
    simp only [nameText, NativeSignature.text, hfull, String.append_assoc]
  refine ⟨_, _, hreturn, hcodes, htext, ?_⟩
  calc
    method.HasToolchainParameters charSet ⟨method.nameText charSet ⟨returnType, parameters⟩⟩ ↔
        BackReference.parameterText (parameters.map fun native => native.code charSet) =
          String.join (parameters.map fun native => native.code charSet) ++ "@" :=
      hasToolchainParameters_iff hreturn hcodes htext
    _ ↔ Distinct [] (parameters.map fun native => native.code charSet) := by
      rw [BackReference.parameterText, String.append_left_inj]
      exact NativeType.join_codes_eq_iff charSet parameters
    _ ↔ _ := Iff.rfl

def repeatedInts : Method :=
  { name := "f", parameters := [.primitive .int64, .primitive .int32, .primitive .int32,
      .primitive .string] }

theorem repeatedInts_match :
    repeatedInts.encodedParameters ≠ [] ∧
      repeatedInts.decoratedName .wide = .ok ⟨"?f@@YAX_JHHPEB_W@Z"⟩ ∧
      repeatedInts.HasToolchainParameters .wide ⟨"?f@@YAX_JHHPEB_W@Z"⟩ := by
  have hparameters : repeatedInts.encodedParameters ≠ [] := by decide
  have hname : repeatedInts.decoratedName .wide = .ok ⟨"?f@@YAX_JHHPEB_W@Z"⟩ := by decide
  obtain ⟨returnCode, codes, -, hcodes, -, hmatch⟩ :=
    parameters_match_toolchain_iff hname hparameters
  have hknown : ["_J", "H", "H", "PEB_W"] = codes :=
    (List.map_inj_right fun _ _ hok => Except.ok.inj hok).mp hcodes
  refine ⟨hparameters, hname, hmatch.mpr ?_⟩
  rw [← hknown]
  decide

def repeatedLongs : Method :=
  { name := "f", parameters := [.primitive .int64, .primitive .int64] }

/-- The second of two 64-bit integers is written in full where the toolchain writes a digit. -/
theorem repeatedLongs_differ :
    repeatedLongs.encodedParameters ≠ [] ∧
      repeatedLongs.decoratedName .wide = .ok ⟨"?f@@YAX_J_J@Z"⟩ ∧
      BackReference.parameterText ["_J", "_J"] = "_J0@" ∧
      ¬ repeatedLongs.HasToolchainParameters .wide ⟨"?f@@YAX_J_J@Z"⟩ := by
  refine ⟨by decide, by decide, by decide, ?_⟩
  have hreturn : (repeatedLongs.returnType.typeCode .wide).result = .ok "X" := rfl
  have hcodes : (repeatedLongs.encodedParameters.map fun type => (type.typeCode .wide).result) =
      ["_J", "_J"].map Except.ok := rfl
  have htext : (⟨"?f@@YAX_J_J@Z"⟩ : DecoratedName).text =
      "?" ++ repeatedLongs.qualifiedName ++ "@@" ++ repeatedLongs.accessCode ++ "A" ++ "X" ++
        "_J_J@" ++ "Z" := by decide
  rw [hasToolchainParameters_iff hreturn hcodes htext]
  decide

end Method

end DecoratedNames
