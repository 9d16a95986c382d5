import HttpsProxy.Base64
import HttpsProxy.StringSearch
import HttpsProxy.CacheFifo
import HttpsProxy.CacheFailure
import HttpsProxy.CacheCounters
import HttpsProxy.DiskFailure
import HttpsProxy.LogDelivery
import HttpsProxy.LogShutdown
import HttpsProxy.Delivery
import HttpsProxy.FlushReentry
import HttpsProxy.Isolation
import HttpsProxy.Registration
import HttpsProxy.Dispatch
import HttpsProxy.ReadyEvents
import HttpsProxy.ReadAssembly
import HttpsProxy.HeaderReading
import HttpsProxy.Descriptors
import HttpsProxy.ClientHearing
import HttpsProxy.TunnelLoss
import HttpsProxy.ForeignBytes
import HttpsProxy.Split
import HttpsProxy.ConnectRequest
import HttpsProxy.RecentLog
import HttpsProxy.OldestLog
import HttpsProxy.OnPrint
import HttpsProxy.Dump
import HttpsProxy.HeaderBuffer
import HttpsProxy.Endpoint
import HttpsProxy.MemVectorSpec
import HttpsProxy.Links
import HttpsProxy.MemNode
import HttpsProxy.MemNodePool
import HttpsProxy.MemNodeRuns
import HttpsProxy.MemNodeFailure
import HttpsProxy.Rings
import HttpsProxy.MemSlab
import HttpsProxy.MemCache
import HttpsProxy.MemQueues
import HttpsProxy.MemCacheAlloc
import HttpsProxy.MemCacheFree
import HttpsProxy.MemCacheKeeps
import HttpsProxy.MemCacheCalls
import HttpsProxy.MemCacheRuns
import HttpsProxy.MemCacheLedger
import HttpsProxy.MemSupply
import HttpsProxy.MemSlabSet
import HttpsProxy.Kmem
import HttpsProxy.KmemSizes
import HttpsProxy.KmemClasses
