import Rendition.Format.Report
import Rendition.Proofs.Concert.Durations
import Rendition.Proofs.Concert.Identities
import Rendition.Proofs.Concert.Influence
import Rendition.Proofs.Concert.Validity
import Rendition.Proofs.Format.RoundTrip
import Rendition.Proofs.Formula.Faults
import Rendition.Proofs.Play.Checking
import Rendition.Proofs.Play.Counting
import Rendition.Proofs.Play.Descent
import Rendition.Proofs.Play.FinalBar
import Rendition.Proofs.Play.InTurn
import Rendition.Proofs.Play.Loudness
import Rendition.Proofs.Play.Marking
import Rendition.Proofs.Play.Pointing
import Rendition.Proofs.Play.Prolonging
import Rendition.Proofs.Play.Recording
import Rendition.Proofs.Play.Refusal
import Rendition.Proofs.Play.Retracing
import Rendition.Proofs.Play.Sustaining
import Rendition.Proofs.Play.Terminal
import Rendition.Proofs.Play.Tidying
import Rendition.Proofs.Play.Tracing
import Rendition.Proofs.Play.Transposition
import Rendition.Proofs.Play.Tying
import Rendition.Proofs.Play.Unbarring
import Rendition.Proofs.Play.Voices
import Rendition.Proofs.Script.Adjusting
import Rendition.Proofs.Sound.Chords
import Rendition.Proofs.Sound.Doubling
import Rendition.Proofs.Sound.Silence
