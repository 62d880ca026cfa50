import QueryLogic.Calls
import QueryLogic.Json.Encode
import QueryLogic.Session
import QueryLogic.Proofs.FirstOccurrences
import QueryLogic.Proofs.ChainMeaning
import QueryLogic.Proofs.Meaning
import QueryLogic.Proofs.ChainNormal
import QueryLogic.Proofs.FixedPoint
import QueryLogic.Proofs.Duality
import QueryLogic.Proofs.Laws
import QueryLogic.Proofs.NegationLaws
import QueryLogic.Proofs.NegationNormal
import QueryLogic.Proofs.NormalShape
import QueryLogic.Proofs.Cut
import QueryLogic.Proofs.Text.Word
import QueryLogic.Proofs.Text.Scan
import QueryLogic.Proofs.Text.Grammar
import QueryLogic.Proofs.Text.Reader
import QueryLogic.Proofs.Text.RoundTrip
import QueryLogic.Proofs.Text.Sentence
import QueryLogic.Proofs.Text.Parentheses
import QueryLogic.Proofs.Json.Grammar
import QueryLogic.Proofs.Json.Scan
import QueryLogic.Proofs.Json.Reader
import QueryLogic.Proofs.Json.Decode
import QueryLogic.Proofs.Json.Styles
import QueryLogic.Proofs.Locations
import QueryLogic.Proofs.Alike
import QueryLogic.Proofs.Routes
import QueryLogic.Proofs.Hashing
import QueryLogic.Proofs.NegationPlaces
import QueryLogic.Proofs.ChainOperands
import QueryLogic.Proofs.KeptOperands
import QueryLogic.Proofs.KeptLeaves
import QueryLogic.Proofs.NegatedChains
import QueryLogic.Proofs.Regrouping
import QueryLogic.Proofs.Text.Unambiguous
import QueryLogic.Proofs.Columns
import QueryLogic.Proofs.NegationTrace
import QueryLogic.Proofs.RepeatsTrace
import QueryLogic.Proofs.ChainByChain
import QueryLogic.Proofs.PrunedWalks
import QueryLogic.Proofs.PartialWalks
import QueryLogic.Proofs.Text.FlatChains
import QueryLogic.Proofs.Text.Name
import QueryLogic.Proofs.Text.Literals
import QueryLogic.Proofs.Drafts
import QueryLogic.Proofs.Sessions
