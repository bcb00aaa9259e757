/-
The object store: how its calls end, and the objects of the parts that the manifests name.
-/
import Mathlib

namespace Signy

/-- How a call ends: it is done, it fails, or it takes effect and an error is returned. -/
inductive StoreOutcome
  | done
  | failed
  | lost
deriving DecidableEq

/-! ## Parts -/

structure PartName where
  partition : String
  id : String
deriving DecidableEq

def partFiles : List String := ["data.parquet", "index.bin", "meta.json"]

def tracePartFiles : List String := ["data.parquet", "trace.bloom", "meta.json"]

def metricPartFiles : List String := ["data.bin", "index.bin", "labels.bin", "series.bloom", "meta.json"]

/-- The paths of the objects of a part. -/
def PartName.objects (kind : String) (files : List String) (part : PartName) : List String :=
  files.map fun file => kind ++ "/" ++ part.partition ++ "/" ++ part.id ++ "/" ++ file

structure Manifests where
  logs : List PartName
  traces : List PartName
  metrics : List PartName
deriving DecidableEq

def Manifests.activeObjectKeys (manifests : Manifests) : List String :=
  manifests.logs.flatMap (PartName.objects "parts" partFiles) ++
    manifests.traces.flatMap (PartName.objects "trace_parts" tracePartFiles) ++
    manifests.metrics.flatMap (PartName.objects "metric_parts" metricPartFiles)

end Signy
