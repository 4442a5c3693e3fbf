import Linguafranca.Support.Run
import Linguafranca.Support.Interleaving
import Linguafranca.Support.Collect
import Linguafranca.Support.Text
import Linguafranca.Support.AddressText
import Linguafranca.Support.PostOrder
import Linguafranca.Support.CharBuffer
import Linguafranca.Support.RwLock
import Linguafranca.Support.Custody
import Linguafranca.Support.SearchTree
import Linguafranca.Support.TreeMap
import Linguafranca.Support.Linearization
import Linguafranca.Support.Buckets
import Linguafranca.Support.Chain
import Linguafranca.Support.Moments
import Linguafranca.Support.Progress
import Linguafranca.Support.Bytes
import Linguafranca.Support.CString
import Linguafranca.Support.Gather
import Linguafranca.Support.Kfifo
import Linguafranca.Support.Memory
import Linguafranca.Support.SelectionSort
import Linguafranca.Support.Wildcard
import Linguafranca.Ips
import Linguafranca.Nfstat.Nfs
import Linguafranca.Nfstat.IpRule
import Linguafranca.Nfstat.IpCounter
import Linguafranca.Nfstat.Hook
import Linguafranca.Nfstat.RuleLookup
import Linguafranca.Nfstat.AddressTree
import Linguafranca.Nfstat.Step
import Linguafranca.Nfstat.Slots
import Linguafranca.Nfstat.AddrBytes
import Linguafranca.Nfstat.AddressMap
import Linguafranca.Nfstat.Serving
import Linguafranca.Nfstat.Counting
import Linguafranca.Nfstat.Overlap
import Linguafranca.Nfstat.Apart
import Linguafranca.Nfstat.Soundness
import Linguafranca.Nfstat.Removal
import Linguafranca.Nfstat.Mirror
import Linguafranca.Nfstat.UpperLayer
import Linguafranca.Nfstat.Reading
import Linguafranca.Nfstat.Bracketing
import Linguafranca.Nfstat.Getcounter
import Linguafranca.Nfstat.UserBuffer
import Linguafranca.Nfstat.Listing
import Linguafranca.Nfstat.AddressText
import Linguafranca.Nfstat.RuleText
import Linguafranca.Nfstat.Internal
import Linguafranca.Nfstat.Clearing
import Linguafranca.Nfstat.AddressBuffer
import Linguafranca.Nfstat.Store
import Linguafranca.Nfstat.StoreSteps
import Linguafranca.Nfstat.StoreHolders
import Linguafranca.Nfstat.Lifetimes
import Linguafranca.Nfstat.Linearization
import Linguafranca.Ipshark.Intern
import Linguafranca.Ipshark.Devset
import Linguafranca.Ipshark.IpQueue
import Linguafranca.Ipshark.Core
import Linguafranca.Ipshark.Calls
import Linguafranca.Ipshark.Exclusion
import Linguafranca.Ipshark.Configuration
import Linguafranca.Ipshark.Membership
import Linguafranca.Ipshark.Hook
import Linguafranca.Ipshark.Installation
import Linguafranca.Ipshark.Conservation
import Linguafranca.Ipshark.FailedFetch
import Linguafranca.Ipshark.Lifecycle
import Linguafranca.Ipshark.Files
import Linguafranca.Ipshark.Framework
import Linguafranca.Ipshark.Reader
import Linguafranca.Ipshark.Threads
import Linguafranca.Ipshark.Description
import Linguafranca.Ipshark.Capture
import Linguafranca.Ipshark.CaptureSteps
import Linguafranca.Ipshark.CaptureMemory
import Linguafranca.Ipshark.CaptureClient
import Linguafranca.Ipshark.CapturePackets
import Linguafranca.Ipshark.CaptureDecisions
import Linguafranca.Ipshark.CaptureRecords
import Linguafranca.Ipshark.CaptureNames
import Linguafranca.Ipshark.CaptureRest
import Linguafranca.Ipshark2.IpQueue
import Linguafranca.Ipshark2.Partition
import Linguafranca.Ipshark2.Pool
import Linguafranca.Ipshark2.Records
import Linguafranca.Ipshark2.Devset
import Linguafranca.Ipshark2.Filter
import Linguafranca.Ipshark2.Hook
import Linguafranca.Ipshark2.Core
import Linguafranca.Ipshark2.Configuration
import Linguafranca.Ipshark2.WrongRecycle
import Linguafranca.Ipshark2.Requests
import Linguafranca.Ipshark2.Ioctl
import Linguafranca.Ipshark2.Atomicity
import Linguafranca.Ipshark2.Balance
import Linguafranca.Ipshark2.Dma
import Linguafranca.Ipshark2.Stranding
import Linguafranca.Ipshark2.Draining
import Linguafranca.Ipshark2.Creation
import Linguafranca.Ipshark2.Ordering
import Linguafranca.Ipshark2.Bisection
import Linguafranca.Ipshark2.SharedArea
import Linguafranca.Ipshark2.AreaSteps
import Linguafranca.Ipshark2.AreaInvariant
import Linguafranca.Ipshark2.AreaCustody
import Linguafranca.Ipshark2.AreaPlaces
import Linguafranca.Ipshark2.AreaRecords
