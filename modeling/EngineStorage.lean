import EngineStorage.Bytesrepr
import EngineStorage.BTreeMap
import EngineStorage.ProtocolData.Basic
import EngineStorage.ProtocolData.UpdateFrom
import EngineStorage.ProtocolData.Serialization
