import SpeechGrammar.CommandLine.Run
import SpeechGrammar.Main
import SpeechGrammar.Session
import SpeechGrammar.Proofs.Regex.Goals
import SpeechGrammar.Proofs.Regex.Spans
import SpeechGrammar.Proofs.Regex.Reading
import SpeechGrammar.Proofs.Text.Phrases
import SpeechGrammar.Proofs.Grammar.Check
import SpeechGrammar.Proofs.Grammar.Inline
import SpeechGrammar.Proofs.Grammar.RuleLanguage
import SpeechGrammar.Proofs.Grammar.TextPass
import SpeechGrammar.Proofs.Pattern.Compiled
import SpeechGrammar.Proofs.Prepared
import SpeechGrammar.Proofs.Pattern.Reference
import SpeechGrammar.Proofs.Pattern.TextPass
import SpeechGrammar.Proofs.Grammar.Edit
import SpeechGrammar.Proofs.Grammar.Embedding
import SpeechGrammar.Proofs.NormalForm
import SpeechGrammar.Proofs.Pattern.Expansion
import SpeechGrammar.Proofs.Grammar.Order
import SpeechGrammar.Proofs.Grammar.InPlace
import SpeechGrammar.Proofs.Pattern.Reload
import SpeechGrammar.Proofs.Fingerprint.Encoding
import SpeechGrammar.Proofs.Markup.RoundTrip
import SpeechGrammar.Proofs.Markup.Comment
import SpeechGrammar.Proofs.CommandLine.Run
import SpeechGrammar.Proofs.Grammar.Schema
import SpeechGrammar.Proofs.Grammar.RoundTrip
import SpeechGrammar.Proofs.Pattern.Wordless
import SpeechGrammar.Proofs.Text.Quotes
import SpeechGrammar.Proofs.Grammar.PassLaws
import SpeechGrammar.Proofs.Grammar.Circle
import SpeechGrammar.Proofs.Pattern.Rejection
import SpeechGrammar.Proofs.Markup.WellFormed
import SpeechGrammar.Proofs.Pattern.Equality
import SpeechGrammar.Proofs.Pattern.Case
import SpeechGrammar.Proofs.Grammar.Descent
import SpeechGrammar.Proofs.Markup.Build
import SpeechGrammar.Proofs.Pattern.Spacing
