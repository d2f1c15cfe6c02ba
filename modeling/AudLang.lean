import AudLang.Main
import AudLang.Proofs.Answering
import AudLang.Proofs.Chains
import AudLang.Proofs.Destinations
import AudLang.Proofs.Equality
import AudLang.Proofs.Idle
import AudLang.Proofs.Levels
import AudLang.Proofs.Lookahead
import AudLang.Proofs.Numerals
import AudLang.Proofs.Passing
import AudLang.Proofs.RoundTrip
import AudLang.Proofs.ScopedChecks
import AudLang.Proofs.Sources
import AudLang.Proofs.Spans
import AudLang.Proofs.Standing
import AudLang.Proofs.Stretches
import AudLang.Proofs.TypeOrder
import AudLang.Proofs.Ungrouping
import AudLang.Sample
import AudLang.Value.Description
