import OqsBind.Dns.TypeBitmap

/-! Classes and types of rdata (`rdata.c`) that more than one module reads. -/

namespace OqsBind.Dns

/-- `dns_rdataclass_t`. -/
abbrev RdataClass := UInt16

namespace RdataClass

def in_ : RdataClass := 1
def none : RdataClass := 254
def any : RdataClass := 255

end RdataClass

namespace RdataType

def a : RdataType := 1
def sig : RdataType := 24
def opt : RdataType := 41
def rrsig : RdataType := 46
def dnskey : RdataType := 48
def nsec3 : RdataType := 50
def nsec3param : RdataType := 51

end RdataType

end OqsBind.Dns
