import BooleanSearch.Logging
import BooleanSearch.Session
import BooleanSearch.Proofs.FilterMeaning
import BooleanSearch.Proofs.Precedence
import BooleanSearch.Proofs.Reparse
import BooleanSearch.Proofs.TextSearch
import BooleanSearch.Proofs.Composition
import BooleanSearch.Proofs.WritableTrees
import BooleanSearch.Proofs.EscapedText
import BooleanSearch.Proofs.JsonText
import BooleanSearch.Proofs.RulesetText
import BooleanSearch.Proofs.Conservation
import BooleanSearch.Proofs.TreeShape
import BooleanSearch.Proofs.OperatorKeys
import BooleanSearch.Proofs.BuiltParsers
import BooleanSearch.Proofs.DepthLimit
import BooleanSearch.Proofs.Comparisons
import BooleanSearch.Proofs.FailureKinds
import BooleanSearch.Proofs.WildcardSearch
import BooleanSearch.Proofs.ConvertibleTrees
import BooleanSearch.Proofs.Respacing
import BooleanSearch.Proofs.ExplicitConnectives
import BooleanSearch.Proofs.RegularExpressions
import BooleanSearch.Proofs.AnchoredPatterns
import BooleanSearch.Proofs.FieldModes
import BooleanSearch.Proofs.ReadRulesets
import BooleanSearch.Proofs.MemberOrder
import BooleanSearch.Proofs.SortedDocuments
import BooleanSearch.Proofs.ScanStates
import BooleanSearch.Proofs.LexicalRules
import BooleanSearch.Proofs.ShownSigns
import BooleanSearch.Proofs.ParseTrace
import BooleanSearch.Proofs.Registrations
import BooleanSearch.Proofs.Visits
