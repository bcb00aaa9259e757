import Fn0.Collecty.QueueBytes
import Fn0.Collecty.QueueNumbers
import Fn0.Control.ActivationRun
import Fn0.Control.CollectionRun
import Fn0.Control.DirectoryCollection
import Fn0.Control.EgressRun
import Fn0.Control.SingletonRecovery
import Fn0.DocDb.TrxRun
import Fn0.Dodb.ResponseSize
import Fn0.Forte.JsonRoundTrip
import Fn0.Signy.CatalogHistory
import Fn0.Signy.CatalogRecovery
import Fn0.Signy.CollectedRecords
import Fn0.Signy.DeleteStatus
import Fn0.Signy.GorillaSafety
import Fn0.Signy.HistogramLossless
import Fn0.Signy.JournalMarks
import Fn0.Signy.LinePruning
import Fn0.Signy.LogfmtExtraction
import Fn0.Signy.MergedUnion
import Fn0.Signy.Orphans
import Fn0.Signy.TopK
