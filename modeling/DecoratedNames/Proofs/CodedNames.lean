import DecoratedNames.Proofs.EncodableTypes
import DecoratedNames.Proofs.PrefixCodes
import DecoratedNames.Proofs.TypeRoundTrip

namespace DecoratedNames

namespace HostType

open DecoratedNames.TypeName

def codedNames : List String :=
  ["System.Void", "void", "System.Char", "char", "System.SByte", "sbyte", "System.Byte", "byte",
   "System.Int16", "short", "System.UInt16", "ushort", "System.Int32", "int",
   "System.UInt32", "uint", "System.Int64", "long", "System.UInt64", "ulong",
   "System.Single", "float", "System.Double", "double", "System.String", "string",
   "System.Int32&", "int&"]

/-- The two names of a primitive under its wrappers; any other centre has none here. -/
def spellings (type : HostType) : List String :=
  match type.centre with
  | .primitive p =>
      [p.fullName, p.keyword].map (· ++ String.join (type.wrappers.map Wrapper.text))
  | _ => []

variable {text other name : String} {type type' : HostType} {p : Primitive} {charSet : CharSet}

theorem codedNames_eq : codedNames = encodable.flatMap spellings := by
  decide

theorem mem_codedNames_iff :
    name ∈ codedNames ↔ ∃ type : HostType, type.IsEncodable ∧ name ∈ type.spellings := by
  rw [codedNames_eq]
  exact List.mem_flatMap

theorem mem_spellings_iff (hcentre : type.centre = .primitive p) :
    name ∈ type.spellings ↔
      name.toList = p.fullName.toList ++ wrapperText type.wrappers ∨
        name.toList = p.keyword.toList ++ wrapperText type.wrappers := by
  simp only [spellings, hcentre, List.map_cons, List.map_nil, List.mem_cons, List.not_mem_nil,
    or_false, ← String.toList_inj, String.toList_append, toList_join_wrappers]

theorem parse_eq_ok_iff_mem_spellings (hcentre : type.centre = .primitive p) :
    parse text = .ok type ↔ String.ofList (Text.trim text.toList) ∈ type.spellings := by
  rw [mem_spellings_iff hcentre, String.toList_ofList]
  constructor
  · intro h
    rcases parse_ok_cases h with ⟨element, wrappers, hplain, rfl⟩ | ⟨-, rfl⟩
    · have hdenotes := denotes_centre element wrappers
      rw [hcentre] at hdenotes
      have hwrappers :
          ((ofElement (String.ofList element)).wrapAll wrappers).wrappers = wrappers := by simp
      rw [hwrappers, hplain.2]
      rcases hdenotes with ⟨q, hspelled, hq⟩ | ⟨-, hclass⟩
      · obtain rfl := HostType.primitive.inj hq
        rcases hspelled with hfull | hkeyword
        · rw [← hfull, String.toList_ofList]
          exact Or.inl rfl
        · rw [← hkeyword, String.toList_ofList]
          exact Or.inr rfl
      · cases hclass
    · cases hcentre
  · intro h
    rw [← wrapAll_wrappers type, hcentre]
    rcases h with hname | hname
    · exact parse_of_plain ⟨isElement_fullName p, hname⟩
        (Or.inl ⟨p, Or.inl String.ofList_toList, rfl⟩)
    · exact parse_of_plain ⟨isElement_keyword p, hname⟩
        (Or.inl ⟨p, Or.inr String.ofList_toList, rfl⟩)

theorem centre_of_isEncodable (h : type.IsEncodable) : ∃ p, type.centre = .primitive p := by
  rcases isEncodable_iff.mp h with ⟨native, hnative⟩
  rw [NativeType.ofHostType?_eq_some_iff] at hnative
  cases native <;> cases hnative <;> exact ⟨_, rfl⟩

theorem typeCode_eq_ok_iff {code : String} :
    (type.typeCode charSet).result = .ok code ↔
      ∃ native : NativeType, native.hostType? = some type ∧ code = native.code charSet := by
  simp only [typeCode_result, ← nativeType_eq_ok_iff]
  cases type.nativeType.result <;> simp [Except.map, eq_comm]

theorem typeCode_injective {code : String} (h : (type.typeCode charSet).result = .ok code)
    (h' : (type'.typeCode charSet).result = .ok code) : type = type' := by
  rcases typeCode_eq_ok_iff.mp h with ⟨native, hnative, rfl⟩
  rcases typeCode_eq_ok_iff.mp h' with ⟨native', hnative', hcode⟩
  have hcodes : (native.code charSet).toList ++ [] = (native'.code charSet).toList ++ [] := by
    rw [hcode]
  obtain ⟨rfl, -⟩ := NativeType.code_cancel (NativeType.ne_wideChar hnative)
    (NativeType.ne_wideChar hnative') hcodes
  exact Option.some.inj (hnative.symm.trans hnative')

theorem coded_iff_mem_codedNames (text : String) (charSet : CharSet) :
    (∃ type code, parse text = .ok type ∧ (type.typeCode charSet).result = .ok code) ↔
      String.ofList (Text.trim text.toList) ∈ codedNames := by
  rw [mem_codedNames_iff]
  constructor
  · intro h
    obtain ⟨type, code, hparse, hcode⟩ := h
    have hencodable : type.IsEncodable := by
      by_contra hnot
      rw [typeCode_of_not_isEncodable hnot] at hcode
      cases hcode
    rcases centre_of_isEncodable hencodable with ⟨p, hcentre⟩
    exact ⟨type, hencodable, (parse_eq_ok_iff_mem_spellings hcentre).mp hparse⟩
  · intro h
    obtain ⟨type, hencodable, hname⟩ := h
    rcases centre_of_isEncodable hencodable with ⟨p, hcentre⟩
    rcases typeCode_of_isEncodable hencodable charSet with ⟨code, hcode⟩
    exact ⟨type, code, (parse_eq_ok_iff_mem_spellings hcentre).mpr hname, hcode⟩

theorem refused_cases
    (h : ¬ ∃ type code, parse text = .ok type ∧ (type.typeCode charSet).result = .ok code) :
    parse text = .error (.invalidTypeName text) ∨
      ∃ type, parse text = .ok type ∧
        (type.typeCode charSet).result = .error (.unsupportedType type) := by
  have hrefused : ∀ type, parse text = .ok type →
      (type.typeCode charSet).result = .error (.unsupportedType type) := by
    intro type hparse
    apply typeCode_of_not_isEncodable
    intro hencodable
    rcases typeCode_of_isEncodable hencodable charSet with ⟨code, hcode⟩
    exact h ⟨type, code, hparse, hcode⟩
  rcases parse_cases text with ⟨_, _, -, hok⟩ | ⟨-, hok⟩ | ⟨-, -, herror⟩
  · exact Or.inr ⟨_, hok, hrefused _ hok⟩
  · exact Or.inr ⟨_, hok, hrefused _ hok⟩
  · exact Or.inl herror

/-- A text is read as a type with a code exactly if it is one of the coded names, and any other text
is refused, by the reader or for its type. Two coded names have one code exactly if they have one
type. -/
theorem typeCode_of_codedName (text : String) (charSet : CharSet) :
    ((∃ type code, parse text = .ok type ∧ (type.typeCode charSet).result = .ok code) ↔
        String.ofList (Text.trim text.toList) ∈ codedNames) ∧
      (String.ofList (Text.trim text.toList) ∉ codedNames ↔
        parse text = .error (.invalidTypeName text) ∨
          ∃ type, parse text = .ok type ∧
            (type.typeCode charSet).result = .error (.unsupportedType type)) ∧
      ∀ (other : String) (type type' : HostType) (code code' : String),
        parse text = .ok type → (type.typeCode charSet).result = .ok code →
        parse other = .ok type' → (type'.typeCode charSet).result = .ok code' →
        (code = code' ↔ parse text = parse other) := by
  refine ⟨coded_iff_mem_codedNames text charSet, ?_, ?_⟩
  · rw [← coded_iff_mem_codedNames text charSet]
    constructor
    · exact refused_cases
    · intro hrefused hcoded
      obtain ⟨type, code, hparse, hcode⟩ := hcoded
      rcases hrefused with herror | ⟨type', hparse', herror⟩
      · cases hparse.symm.trans herror
      · obtain rfl := Except.ok.inj (hparse.symm.trans hparse')
        cases hcode.symm.trans herror
  · intro other type type' code code' hparse hcode hparse' hcode'
    rw [hparse, hparse', Except.ok.injEq]
    constructor
    · intro hcodes
      rw [← hcodes] at hcode'
      exact typeCode_injective hcode hcode'
    · intro htypes
      rw [← htypes] at hcode'
      exact Except.ok.inj (hcode.symm.trans hcode')

theorem long_and_ulong_coded :
    parse " long " = .ok (.primitive .int64) ∧ parse "System.UInt64" = .ok (.primitive .uint64) ∧
      ((HostType.primitive .int64).typeCode .wide).result = .ok "_J" ∧
      ((HostType.primitive .uint64).typeCode .wide).result = .ok "_K" ∧
      ("_J" = "_K" ↔ parse " long " = parse "System.UInt64") := by
  have hlong : parse " long " = .ok (.primitive .int64) := rfl
  have hulong : parse "System.UInt64" = .ok (.primitive .uint64) := rfl
  have hj : ((HostType.primitive .int64).typeCode .wide).result = .ok "_J" := rfl
  have hk : ((HostType.primitive .uint64).typeCode .wide).result = .ok "_K" := rfl
  refine ⟨hlong, hulong, hj, hk, ?_⟩
  exact (typeCode_of_codedName " long " .wide).2.2 "System.UInt64" _ _ _ _ hlong hj hulong hk

end HostType

end DecoratedNames
