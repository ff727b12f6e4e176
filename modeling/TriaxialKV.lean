import TriaxialKV.Pool.Fallback
import TriaxialKV.Pool.FreeOrder
import TriaxialKV.Cache.EvictContract
import TriaxialKV.Cache.KvEvents
import TriaxialKV.Cache.LeakCheck
import TriaxialKV.Cache.SwaRuns
import TriaxialKV.Kernel.QuantError
import TriaxialKV.Kernel.LiveTokens
import TriaxialKV.Kernel.Decode
import TriaxialKV.Sched.Admission
import TriaxialKV.Sched.Retract
import TriaxialKV.Sched.PrefillDelayer
import TriaxialKV.Sched.FutureMap
import TriaxialKV.Tagger.Scaffold
import TriaxialKV.Gateway.TokenBucket
import TriaxialKV.Gateway.BucketLoads
import TriaxialKV.Parser.Qwen3CoderOneShot
import TriaxialKV.Gateway.TreeLookup
import TriaxialKV.Gateway.HashRing
import TriaxialKV.Sched.StopMatch
import TriaxialKV.Sched.Detokenizer
import TriaxialKV.Disagg.StagingProgress
import TriaxialKV.Lora.Registry
import TriaxialKV.Spec.GrammarMask
import TriaxialKV.Disagg.OffloadKeys
import TriaxialKV.Disagg.OffloadRelease
import TriaxialKV.Disagg.Prealloc
import TriaxialKV.Disagg.StagingRoom
import TriaxialKV.Disagg.HeadTransfer
