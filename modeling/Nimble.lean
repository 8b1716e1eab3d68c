import Nimble.Common.Rle
import Nimble.Common.EncodingPrimitives
import Nimble.Encodings.RleEncoding
import Nimble.Encodings.RleDecoding
import Nimble.Encodings.RleRoundTrip
import Nimble.Velox.BufferGrowthPolicy
import Nimble.Velox.SchemaTypes
import Nimble.Velox.FlatMapLayoutPlanner
import Nimble.Velox.EncodingLayoutTree
import Nimble.Velox.EncodingLayoutTreeWrite
import Nimble.Velox.EncodingLayoutTreeRead
import Nimble.Velox.EncodingLayoutTreeRoundTrip
import Nimble.Velox.EncodingLayoutTreeCanonical
import Nimble.Tools.EncodingLayoutLabel
import Nimble.Tools.EncodingLayoutTrainer
import Nimble.Tools.EncodingLayoutTreeDump
import Nimble.Tools.TabletDump
import Nimble.Tools.EncodingHistogram
import Nimble.Tools.TableVerifier
import Nimble.Tools.EncodingLayoutTraining
