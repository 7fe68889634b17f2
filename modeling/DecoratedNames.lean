import DecoratedNames.Decoration
import DecoratedNames.TypeStep
import DecoratedNames.Proofs.NativeSignature
import DecoratedNames.Proofs.EncodableTypes
import DecoratedNames.Proofs.PrefixCodes
import DecoratedNames.Proofs.CharSetChange
import DecoratedNames.Proofs.ConstSuffix
import DecoratedNames.Proofs.NameLayout
import DecoratedNames.Proofs.NameInjectivity
import DecoratedNames.Proofs.NameParts
import DecoratedNames.Proofs.Trimming
import DecoratedNames.Proofs.TypeGrammar
import DecoratedNames.Proofs.TypeRoundTrip
import DecoratedNames.Proofs.Reparsing
import DecoratedNames.Proofs.ScopeSegments
import DecoratedNames.Proofs.AppendedWrappers
import DecoratedNames.Proofs.CodedNames
import DecoratedNames.Proofs.NormalForm
import DecoratedNames.Proofs.ConstBinding
import DecoratedNames.Proofs.MarkerSpellings
import DecoratedNames.Proofs.ScopeRecovery
import DecoratedNames.Proofs.Diagnostics
import DecoratedNames.Proofs.BackReferences
import DecoratedNames.Proofs.SelfDelimiting
import DecoratedNames.Proofs.MarkerPosition
