import Photesthesis.Basic
import Photesthesis.Value
import Photesthesis.Order
import Photesthesis.Plan
import Photesthesis.Match
import Photesthesis.Grammar.Basic
import Photesthesis.Grammar.KPath
import Photesthesis.Grammar.KPathFuel
import Photesthesis.Grammar.Derivation
import Photesthesis.Grammar.KPathSound
import Photesthesis.Grammar.Cycling
import Photesthesis.Grammar.Covering
import Photesthesis.Grammar.CoveringSpec
import Photesthesis.Grammar.KPathCover
import Photesthesis.Grammar.CoverShape
import Photesthesis.Grammar.KPathComplete
import Photesthesis.Grammar.Populate
import Photesthesis.Grammar.Generation
import Photesthesis.Text.Stream
import Photesthesis.Text.Value
import Photesthesis.Text.Reading
import Photesthesis.Text.RoundTrip
import Photesthesis.Corpus.State
import Photesthesis.Corpus.Order
import Photesthesis.Corpus.Text
import Photesthesis.Corpus.Hash
import Photesthesis.Corpus.Load
import Photesthesis.Corpus.Accept
import Photesthesis.Test.Stabilize
import Photesthesis.Test.Administer
import Photesthesis.Test.Expansion
import Photesthesis.Test.Run
import Photesthesis.Test.Select
