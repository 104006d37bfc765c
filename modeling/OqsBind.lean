import OqsBind.Theorems.CompressRollback
import OqsBind.Theorems.NameRoundTrip
import OqsBind.Theorems.TsigRefcount
import OqsBind.Theorems.SlabAlgebra
import OqsBind.Theorems.AclMatch
import OqsBind.Theorems.NsecDenial
import OqsBind.Theorems.Nsec3Denial
import OqsBind.Theorems.StatefulIndex
import OqsBind.Theorems.Quota
import OqsBind.Theorems.Rwlock
import OqsBind.Theorems.DnsStream
import OqsBind.Theorems.QpAncestorNames
import OqsBind.Theorems.Cookie
import OqsBind.Theorems.Dispatch
import OqsBind.Theorems.UpdateSerial
import OqsBind.Theorems.QpIter
import OqsBind.Theorems.NameHierarchy
import OqsBind.Theorems.NameTextRoundTrip
import OqsBind.Theorems.RadixFirst
import OqsBind.Theorems.HashmapIter
import OqsBind.Theorems.Base64
import OqsBind.Theorems.RbtdbSize
import OqsBind.Theorems.RbtdbIter
import OqsBind.Theorems.UpdateAdd
import OqsBind.Theorems.Nta
import OqsBind.Theorems.PrivateChains
import OqsBind.Theorems.Histo
import OqsBind.Theorems.Ratelimiter
import OqsBind.Theorems.SignStats
import OqsBind.Theorems.Heap
import OqsBind.Theorems.Time
