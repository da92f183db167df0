import MarkupFilter.Filter.ByPiece
import MarkupFilter.Filter.ByTree
import MarkupFilter.Filter.Store
import MarkupFilter.Grammar.Meaning
import MarkupFilter.Proofs.Grammar.Halting
import MarkupFilter.Proofs.RuleText.Reading
import MarkupFilter.Proofs.Filter.Crossing
import MarkupFilter.Proofs.Filter.WellNested
import MarkupFilter.Proofs.Policy.BuiltRules
import MarkupFilter.Proofs.Markup.Writing
import MarkupFilter.Proofs.Markup.Documents
import MarkupFilter.Proofs.Markup.Enclosing
import MarkupFilter.Proofs.Filter.Spelling
import MarkupFilter.Proofs.Filter.LiveTags
import MarkupFilter.Proofs.Filter.Settling
import MarkupFilter.Proofs.Filter.SafeMarkup
import MarkupFilter.Proofs.Filter.EndTags
import MarkupFilter.Proofs.Filter.Parameters
import MarkupFilter.Proofs.Filter.Refiltering
import MarkupFilter.Proofs.Filter.LateObjects
import MarkupFilter.Proofs.Filter.OpenNetworking
import MarkupFilter.Proofs.Filter.CaseBlindness
import MarkupFilter.Proofs.Filter.StartTags
import MarkupFilter.Proofs.Filter.CommentEnds
import MarkupFilter.Proofs.Policy.EncodedValues
import MarkupFilter.Proofs.Policy.ScriptAddresses
import MarkupFilter.Proofs.Filter.WrittenValues
import MarkupFilter.Proofs.RuleText.ErrorPlaces
import MarkupFilter.Proofs.Grammar.Relocation
import MarkupFilter.Proofs.Text.Escaping
import MarkupFilter.Proofs.Filter.Marking
import MarkupFilter.Proofs.Filter.Sinks
import MarkupFilter.Proofs.Plugin.Histories
import MarkupFilter.Proofs.Policy.Resolution
import MarkupFilter.Proofs.Filter.FilteredTrees
import MarkupFilter.Proofs.Filter.Touring
import MarkupFilter.Proofs.Plugin.Embedding
import MarkupFilter.Proofs.Markup.OpenHistories
